import OsLabs.Foundation.Recency
import OsLabs.Paging.PagingStorage

/-!
The LRU mode and its time stamps. A first load is stamped with the running counter
`tiempo`, a hit and an eviction with the greatest stamp plus one. The first rule is
out of step with the other two: hits made while frames are still free raise the
stamps above the counter, and a page loaded after them looks older than it is.
-/

namespace OsLabs.Paging

open Function OsLabs.Recency OsLabs.Scans

def edad (h : List Acceso) (p : Pagina) : Nat := age (h.map Acceso.aPagina) p

theorem cInt_eq {value : Int} (lower : 0 ≤ value) (upper : value ≤ intMax) : cInt value = value := by
  simp only [intMax] at upper
  exact Int.bmod_eq_of_le (by omega) (by omega)

theorem tiempo_le_max (tiempoRAM : Fin numMarcos → Int) (f : Fin numMarcos) :
    tiempoRAM f ≤ maxTiempo tiempoRAM :=
  key_le_runningMax tiempoRAM _ _ (List.mem_finRange f)

theorem indiceMin_precede (tiempoRAM : Fin numMarcos → Int) {f : Fin numMarcos}
    (different : f ≠ indiceMin tiempoRAM) : Precedes tiempoRAM (indiceMin tiempoRAM) f := by
  have range : List.finRange numMarcos = 0 :: (List.finRange numMarcos).tail := rfl
  have scan : indiceMin tiempoRAM = firstMin tiempoRAM (List.finRange numMarcos).tail 0 := by
    rw [indiceMin, range]
    simp [firstMin]
  rw [scan] at different ⊢
  refine firstMin_precedes tiempoRAM _ 0 ?_ ?_ different
  · rw [← range]
    exact List.pairwise_lt_finRange numMarcos
  · rw [← range]
    exact List.mem_finRange f

/-- The stamps stay in order at this step: no overflow of an `int`, and a page loaded
into a free frame gets a stamp that no resident page exceeds. -/
structure SelloCorrecto (s : Sim) (a : Acceso) : Prop where
  acierto : (∃ f, s.memoriaFisica f = a.aPagina) → maxTiempo s.tiempoRAM + 1 ≤ intMax
  carga : (∀ f, s.memoriaFisica f ≠ a.aPagina) → (∃ f, s.memoriaFisica f = vacia) →
    ∀ f, s.memoriaFisica f ≠ vacia → s.tiempoRAM f ≤ s.tiempo
  reemplazo : (∀ f, s.memoriaFisica f ≠ a.aPagina) → (∀ f, s.memoriaFisica f ≠ vacia) →
    maxTiempo s.tiempoRAM + 2 ≤ intMax

instance (s : Sim) (a : Acceso) : Decidable (SelloCorrecto s a) :=
  decidable_of_iff
    (((∃ f, s.memoriaFisica f = a.aPagina) → maxTiempo s.tiempoRAM + 1 ≤ intMax) ∧
      ((∀ f, s.memoriaFisica f ≠ a.aPagina) → (∃ f, s.memoriaFisica f = vacia) →
        ∀ f, s.memoriaFisica f ≠ vacia → s.tiempoRAM f ≤ s.tiempo) ∧
      ((∀ f, s.memoriaFisica f ≠ a.aPagina) → (∀ f, s.memoriaFisica f ≠ vacia) →
        maxTiempo s.tiempoRAM + 2 ≤ intMax))
    ⟨fun ⟨acierto, carga, reemplazo⟩ => ⟨acierto, carga, reemplazo⟩,
      fun correcto => ⟨correcto.acierto, correcto.carga, correcto.reemplazo⟩⟩

structure Sellado (h : List Acceso) (s : Sim) : Prop where
  orden : InOrder (h.map Acceso.aPagina) (fun f => s.memoriaFisica f ≠ vacia) s.memoriaFisica
    s.tiempoRAM
  tiempoMarcos : ∀ f, 0 ≤ s.tiempoRAM f
  tiempo : 0 ≤ s.tiempo ∧ s.tiempo ≤ distintos h

theorem inicial_sellado (sinIniciar : Fin maxProcesos → Fin numPaginas → Int) :
    Sellado [] (inicial sinIniciar) := by
  constructor
  · intro older newer occupied
    exact absurd rfl occupied
  · intro f
    exact le_refl _
  · exact ⟨le_refl _, le_refl _⟩

theorem sellarDesalojo_eq {tiempoRAM : Fin numMarcos → Int} {f : Fin numMarcos}
    (positive : ∀ g, 0 ≤ tiempoRAM g) (room : maxTiempo tiempoRAM + 2 ≤ intMax) (g : Fin numMarcos) :
    sellarDesalojo tiempoRAM f g =
      (if g = f then maxTiempo tiempoRAM + 1 else tiempoRAM g) + 1 := by
  have least := positive f
  have greatest := tiempo_le_max tiempoRAM f
  have bound := tiempo_le_max tiempoRAM g
  have lower := positive g
  have stamp : cInt (maxTiempo tiempoRAM + 1) = maxTiempo tiempoRAM + 1 :=
    cInt_eq (by omega) (by omega)
  simp only [sellarDesalojo, update_apply, stamp]
  split
  · exact cInt_eq (by omega) (by omega)
  · exact cInt_eq (by omega) (by omega)

theorem Precedes.of_shift {tiempoRAM nuevo : Fin numMarcos → Int} {f g : Fin numMarcos} (delta : Int)
    (left : nuevo f = tiempoRAM f + delta) (right : nuevo g = tiempoRAM g + delta)
    (before : Precedes tiempoRAM f g) : Precedes nuevo f g := by
  rcases before with less | ⟨same, first⟩
  · exact Or.inl (by omega)
  · exact Or.inr ⟨by omega, first⟩

theorem Sellado.acertar {h : List Acceso} {s : Sim} {a : Acceso} {i : Fin numMarcos}
    (ok : Integro .lru h s) (sellado : Sellado h s) (enRAM : s.memoriaFisica i = a.aPagina)
    (room : maxTiempo s.tiempoRAM + 1 ≤ intMax) :
    Sellado (h ++ [a]) (s.anotar .lru (.acierto i)) := by
  have known := mem_historia_ram ok.almacen enRAM
  have least := sellado.tiempoMarcos i
  have greatest := tiempo_le_max s.tiempoRAM i
  have stamp : cInt (maxTiempo s.tiempoRAM + 1) = maxTiempo s.tiempoRAM + 1 :=
    cInt_eq (by omega) room
  constructor
  · rw [List.map_append]
    refine sellado.orden.restamp i enRAM ?_ ?_ ?_
    · intro g apart occupied
      refine ⟨occupied, rfl, fun same => apart ?_⟩
      have occupiedSlot : s.almacen (Sum.inl g) ≠ vacia := occupied
      exact Sum.inl_injective (ok.almacen.guarda.injective_on occupiedSlot (same.trans enRAM.symm))
    · intro f g apartF apartG _ _ before
      exact Precedes.of_shift 0 (by simp [Sim.anotar, apartF]) (by simp [Sim.anotar, apartG]) before
    · intro g apart _
      have bound := tiempo_le_max s.tiempoRAM g
      refine Or.inl ?_
      simp only [Sim.anotar, update_of_ne apart, update_self, stamp]
      omega
  · intro g
    simp only [Sim.anotar, update_apply, stamp]
    split
    · omega
    · exact sellado.tiempoMarcos g
  · rw [distintos_concat_of_mem known]
    exact sellado.tiempo

theorem Sellado.cargar {h : List Acceso} {s siguiente : Sim} {a : Acceso} {libre : Fin numMarcos}
    (ok : Integro .lru h s) (sellado : Sellado h s)
    (fueraRAM : ∀ f, s.memoriaFisica f ≠ a.aPagina)
    (fueraDisco : ∀ d, s.memoriaSecundaria d ≠ a.aPagina) (lugar : libre.val = distintos h)
    (room : ∀ f, s.memoriaFisica f ≠ vacia → s.tiempoRAM f ≤ s.tiempo)
    (memoriaFisica : siguiente.memoriaFisica = update s.memoriaFisica libre a.aPagina)
    (tiempoRAM : siguiente.tiempoRAM = update s.tiempoRAM libre s.tiempo)
    (tiempo : siguiente.tiempo = cInt (s.tiempo + 1)) : Sellado (h ++ [a]) siguiente := by
  have fresh := not_mem_historia ok.almacen fueraRAM fueraDisco
  have cupo := ok.almacen.cupo
  have total : numMarcos + numDisco = 24 := rfl
  obtain ⟨lower, upper⟩ := sellado.tiempo
  constructor
  · rw [List.map_append, memoriaFisica, tiempoRAM]
    refine sellado.orden.restamp libre (update_self ..) ?_ ?_ ?_
    · intro g apart occupied
      rw [update_of_ne apart] at occupied ⊢
      exact ⟨occupied, rfl, fueraRAM g⟩
    · intro f g apartF apartG _ _ before
      exact Precedes.of_shift 0 (by simp [apartF]) (by simp [apartG]) before
    · intro g apart occupied
      rw [update_of_ne apart] at occupied
      have below := (ok.almacen.ram g).mp occupied
      rw [Precedes, update_of_ne apart, update_self]
      rcases lt_or_eq_of_le (room g occupied) with less | same
      · exact Or.inl less
      · exact Or.inr ⟨same, Fin.lt_def.mpr (by omega)⟩
  · intro g
    rw [tiempoRAM, update_apply]
    split
    · exact lower
    · exact sellado.tiempoMarcos g
  · rw [tiempo, cInt_eq (by omega) (by simp only [intMax]; omega), distintos_concat_of_not_mem fresh]
    omega

theorem Sellado.reemplazar {h : List Acceso} {s siguiente : Sim} {a : Acceso} {f : Fin numMarcos}
    (sellado : Sellado h s) (fueraRAM : ∀ f, s.memoriaFisica f ≠ a.aPagina)
    (room : maxTiempo s.tiempoRAM + 2 ≤ intMax)
    (sinHueco : ∀ f, s.memoriaFisica f ≠ vacia)
    (memoriaFisica : siguiente.memoriaFisica = update s.memoriaFisica f a.aPagina)
    (tiempoRAM : siguiente.tiempoRAM = sellarDesalojo s.tiempoRAM f)
    (tiempo : siguiente.tiempo = s.tiempo) : Sellado (h ++ [a]) siguiente := by
  have stamp := sellarDesalojo_eq (f := f) sellado.tiempoMarcos room
  constructor
  · rw [List.map_append, memoriaFisica, tiempoRAM]
    refine sellado.orden.restamp f (update_self ..) ?_ ?_ ?_
    · intro g apart _
      exact ⟨sinHueco g, update_of_ne apart .., fueraRAM g⟩
    · intro g g' apart apart' _ _ before
      exact Precedes.of_shift 1 (by rw [stamp, if_neg apart]) (by rw [stamp, if_neg apart']) before
    · intro g apart _
      have bound := tiempo_le_max s.tiempoRAM g
      refine Or.inl ?_
      rw [stamp, stamp, if_neg apart, if_pos rfl]
      omega
  · intro g
    have least := sellado.tiempoMarcos g
    have greatest := tiempo_le_max s.tiempoRAM g
    rw [tiempoRAM, stamp]
    split <;> omega
  · have mono : distintos h ≤ distintos (h ++ [a]) := distintos_le_concat h a
    rw [tiempo]
    have bounds := sellado.tiempo
    omega

theorem Sellado.paso {h : List Acceso} {s siguiente : Sim} {a : Acceso} (ok : Integro .lru h s)
    (created : (s.procesos a.indiceProceso).pid = a.pid) (sellado : Sellado h s)
    (correcto : SelloCorrecto s a) (dado : Paso .lru s a (.continua siguiente)) :
    Sellado (h ++ [a]) siguiente := by
  have marco := marcoDe_eq created
  cases dado with
  | acierto i enRAM => exact sellado.acertar ok enRAM (correcto.acierto ⟨i, enRAM⟩)
  | carga libre fueraRAM fueraDisco hueco primero =>
      refine sellado.cargar ok fueraRAM fueraDisco (ok.almacen.libre_val hueco primero)
        (correcto.carga fueraRAM ⟨libre, hueco⟩) ?_ rfl rfl
      simp [Sim.asignarMarco, Sim.marcoDeCarga, marco]
  | desalojo fueraRAM fueraDisco sinHueco desocupado =>
      refine sellado.reemplazar (f := s.victima .lru) fueraRAM
        (correcto.reemplazo fueraRAM sinHueco) sinHueco ?_ rfl rfl
      simp [Sim.pasarDisco, Sim.asignarMarco, Sim.bajarADisco, marco]
  | intercambio d fueraRAM enDisco sinHueco =>
      refine sellado.reemplazar (f := s.victima .lru) fueraRAM
        (correcto.reemplazo fueraRAM sinHueco) sinHueco ?_ rfl rfl
      simp [Sim.asignarMarco, Sim.bajarADisco, enDisco]
  | omitido d libre enDisco hueco => exact (ok.almacen.sinOmitidos enDisco hueco).elim

theorem Sellado.turno {h : List Acceso} {s siguiente : Sim} {a : Acceso} (ok : Integro .lru h s)
    (sellado : Sellado h s) (correcto : SelloCorrecto s a)
    (dado : turno .lru s a = some siguiente) : Sellado (h ++ [a]) siguiente := by
  have selladoCreado : Sellado h (s.crearProceso a) :=
    ⟨by simpa using sellado.orden, by simpa using sellado.tiempoMarcos, by simpa using sellado.tiempo⟩
  have correctoCreado : SelloCorrecto (s.crearProceso a) a :=
    ⟨by simpa using correcto.acierto, by simpa using correcto.carga, by simpa using correcto.reemplazo⟩
  exact selladoCreado.paso (ok.crear a) (crearProceso_pid ok.tablas.pids) correctoCreado
    (turno_paso dado)

theorem correr_sellado {sinIniciar : Fin maxProcesos → Fin numPaginas → Int} {h : List Acceso}
    {s : Sim}
    (correctos : Runs.Along (turno .lru) (fun _ => SelloCorrecto) (inicial sinIniciar) h)
    (corrida : correr .lru sinIniciar h = some s) : Integro .lru h s ∧ Sellado h s := by
  refine Runs.run_invariant_along (fun h s => Integro .lru h s ∧ Sellado h s) ?_ ?_ h s
    correctos corrida
  · exact ⟨inicial_integro .lru sinIniciar, inicial_sellado sinIniciar⟩
  · rintro h s a siguiente ⟨ok, sellado⟩ correcto dado
    exact ⟨ok.turno dado, sellado.turno ok correcto dado⟩

def DesalojaMenosReciente (h : List Acceso) (s siguiente : Sim) : Prop :=
  ∃ p ∈ s.residentes, p ∉ siguiente.residentes ∧
    ∀ q ∈ s.residentes, q ≠ p → q ∈ siguiente.residentes ∧ edad h q < edad h p

/-- What LRU asks of one access: a fault on full frames that the program serves
evicts the least recently used page. -/
def PoliticaLRU (h : List Acceso) (s : Sim) (a : Acceso) : Prop :=
  ∀ siguiente, turno .lru s a = some siguiente → (∀ f, s.memoriaFisica f ≠ a.aPagina) →
    (∀ f, s.memoriaFisica f ≠ vacia) → DesalojaMenosReciente h s siguiente

theorem turno_reemplaza {modo : Modo} {h : List Acceso} {s siguiente : Sim} {a : Acceso}
    (ok : Integro modo h s) (dado : turno modo s a = some siguiente)
    (fueraRAM : ∀ f, s.memoriaFisica f ≠ a.aPagina) (sinHueco : ∀ f, s.memoriaFisica f ≠ vacia) :
    siguiente.memoriaFisica =
      update s.memoriaFisica ((s.crearProceso a).victima modo) a.aPagina := by
  have marco := marcoDe_eq (crearProceso_pid (a := a) ok.tablas.pids)
  have paso := turno_paso dado
  cases paso with
  | acierto i enRAM => exact absurd (by simpa using enRAM) (fueraRAM i)
  | carga libre _ _ hueco _ => exact absurd (by simpa using hueco) (sinHueco libre)
  | desalojo _ _ _ _ => simp [Sim.pasarDisco, Sim.asignarMarco, Sim.bajarADisco, marco]
  | intercambio d _ enDisco _ =>
      simp only [crearProceso_memoriaSecundaria] at enDisco
      simp [Sim.asignarMarco, Sim.bajarADisco, enDisco]
  | omitido d libre _ hueco => exact absurd (by simpa using hueco) (sinHueco libre)

theorem residentes_reemplazo {s siguiente : Sim} {f : Fin numMarcos} {p : Pagina}
    (memoriaFisica : siguiente.memoriaFisica = update s.memoriaFisica f p)
    {g : Fin numMarcos} (occupied : s.memoriaFisica g ≠ vacia) (apart : g ≠ f) :
    s.memoriaFisica g ∈ siguiente.residentes :=
  ⟨occupied, g, by rw [memoriaFisica, update_of_ne apart]⟩

theorem Sellado.politica {h : List Acceso} {s : Sim} (ok : Integro .lru h s)
    (sellado : Sellado h s) (a : Acceso) : PoliticaLRU h s a := by
  intro siguiente dado fueraRAM sinHueco
  have memoriaFisica := turno_reemplaza ok dado fueraRAM sinHueco
  simp only [Sim.victima, crearProceso_tiempoRAM] at memoriaFisica
  have distinct : ∀ f g, s.memoriaFisica f = s.memoriaFisica g → f = g := by
    intro f g same
    have occupied : s.almacen (Sum.inl f) ≠ vacia := sinHueco f
    exact Sum.inl_injective (ok.almacen.guarda.injective_on occupied same)
  refine ⟨s.memoriaFisica (indiceMin s.tiempoRAM), ⟨sinHueco _, _, rfl⟩, ?_, ?_⟩
  · rintro ⟨_, f, found⟩
    by_cases here : f = indiceMin s.tiempoRAM
    · rw [memoriaFisica, here, update_self] at found
      exact fueraRAM _ found.symm
    · rw [memoriaFisica, update_of_ne here] at found
      exact here (distinct _ _ found)
  · rintro q ⟨_, g, rfl⟩ different
    have apart : g ≠ indiceMin s.tiempoRAM := fun same => different (by rw [same])
    have known : s.memoriaFisica g ∈ h.map Acceso.aPagina := by
      simpa [paginas, Sim.almacen] using ok.almacen.guarda.sound (Sum.inl g) (sinHueco g)
    exact ⟨residentes_reemplazo memoriaFisica (sinHueco g) apart,
      sellado.orden.oldest (sinHueco _) (sinHueco g) known different (indiceMin_precede _ apart)⟩

/-- LRU policy: in every run whose accesses keep the stamps in order, every fault on
full frames evicts the least recently used page. -/
theorem lru_desaloja_menos_reciente (sinIniciar : Fin maxProcesos → Fin numPaginas → Int)
    (accesos : List Acceso)
    (correctos : Runs.Along (turno .lru) (fun _ => SelloCorrecto) (inicial sinIniciar) accesos) :
    Runs.Along (turno .lru) PoliticaLRU (inicial sinIniciar) accesos := by
  intro antes a resto s split corrida
  rw [split] at correctos
  obtain ⟨ok, sellado⟩ := correr_sellado correctos.of_append corrida
  exact sellado.politica ok a

theorem lru_desaloja_menos_reciente_ejemplo :
    Runs.Along (turno .lru) (fun _ => SelloCorrecto) (inicial fun _ _ => 0)
        (recorrido 1 ++ recorrido 10) ∧
      Runs.Along (turno .lru) PoliticaLRU (inicial fun _ _ => 0) (recorrido 1 ++ recorrido 10) := by
  have correctos : Runs.Along (turno .lru) (fun _ => SelloCorrecto) (inicial fun _ _ => 0)
      (recorrido 1 ++ recorrido 10) := Runs.alongCheck_sound _ _ _ _ (by decide +kernel)
  exact ⟨correctos, lru_desaloja_menos_reciente _ _ correctos⟩

/-- Page 1 is hit twice before page 2 is loaded; when page 9 needs a frame, page 2
goes to the disk although page 1 was used before it. -/
theorem lru_desaloja_otra :
    let antes := recorrido 1 ++ recorrido 1 ++ recorrido 8
    ∃ s siguiente, correr .lru (fun _ _ => 0) antes = some s ∧
      turno .lru s ⟨1, 9, by decide, by decide⟩ = some siguiente ∧
      ⟨1, 1⟩ ∈ s.residentes ∧ ⟨1, 2⟩ ∈ s.residentes ∧ ⟨1, 2⟩ ∉ siguiente.residentes ∧
      edad antes ⟨1, 2⟩ < edad antes ⟨1, 1⟩ ∧
      ¬PoliticaLRU antes s ⟨1, 9, by decide, by decide⟩ := by
  have observado : (correr .lru (fun _ _ => 0) (recorrido 1 ++ recorrido 1 ++ recorrido 8)).map
      (fun s => (s.memoriaFisica 0, s.memoriaFisica 1, decide (∀ f, s.memoriaFisica f ≠ ⟨1, 9⟩),
        decide (∀ f, s.memoriaFisica f ≠ vacia),
        (turno .lru s ⟨1, 9, by decide, by decide⟩).map fun siguiente =>
          decide (∀ f, siguiente.memoriaFisica f ≠ ⟨1, 2⟩))) =
      some (⟨1, 1⟩, ⟨1, 2⟩, true, true, some true) := by decide +kernel
  obtain ⟨s, corrida, valores⟩ := Option.map_eq_some_iff.mp observado
  simp only [Prod.mk.injEq, decide_eq_true_eq, Option.map_eq_some_iff] at valores
  obtain ⟨primera, segunda, fueraRAM, sinHueco, siguiente, dado, sinSegunda⟩ := valores
  have enRAM : (⟨1, 1⟩ : Pagina) ∈ s.residentes := ⟨by decide, 0, primera⟩
  have victima : (⟨1, 2⟩ : Pagina) ∈ s.residentes := ⟨by decide, 1, segunda⟩
  have expulsada : (⟨1, 2⟩ : Pagina) ∉ siguiente.residentes := by
    rintro ⟨_, f, found⟩
    exact sinSegunda f found
  have masReciente : edad (recorrido 1 ++ recorrido 1 ++ recorrido 8) ⟨1, 2⟩ <
      edad (recorrido 1 ++ recorrido 1 ++ recorrido 8) ⟨1, 1⟩ := by decide +kernel
  refine ⟨s, siguiente, corrida, dado, enRAM, victima, expulsada, masReciente, ?_⟩
  intro politica
  obtain ⟨p, _, _, resto⟩ := politica siguiente dado fueraRAM sinHueco
  by_cases same : (⟨1, 2⟩ : Pagina) = p
  · have older := (resto ⟨1, 1⟩ enRAM (by rw [← same]; decide)).2
    rw [← same] at older
    omega
  · exact expulsada (resto ⟨1, 2⟩ victima same).1

end OsLabs.Paging
