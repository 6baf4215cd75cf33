import Mathlib.Data.Finset.Card
import OsLabs.Foundation.SlotStore
import OsLabs.Paging.PagingSteps

/-!
Storage integrity of the simulator. Frames and disk slots together form a slot
store of the pages accessed so far; both arrays fill from the left, so the number
of distinct pages fixes which slots are occupied and where the cursors stand.
-/

namespace OsLabs.Paging

open Function OsLabs.Cyclic OsLabs.SlotStore

def Sim.almacen (s : Sim) : Fin numMarcos ⊕ Fin numDisco → Pagina :=
  Sum.elim s.memoriaFisica s.memoriaSecundaria

def Sim.residentes (s : Sim) : Set Pagina := {p | p ≠ vacia ∧ ∃ f, s.memoriaFisica f = p}

def paginas (h : List Acceso) : Finset Pagina := (h.map Acceso.aPagina).toFinset

def distintos (h : List Acceso) : Nat := (paginas h).card

theorem mem_paginas {h : List Acceso} {a : Acceso} : a.aPagina ∈ paginas h ↔ a ∈ h := by
  simp only [paginas, List.mem_toFinset, List.mem_map]
  constructor
  · rintro ⟨b, member, same⟩
    exact Acceso.aPagina_injective same ▸ member
  · intro member
    exact ⟨a, member, rfl⟩

theorem exists_of_mem_paginas {h : List Acceso} {p : Pagina} (member : p ∈ paginas h) :
    ∃ a ∈ h, a.aPagina = p := by
  simpa [paginas] using member

theorem paginas_concat (h : List Acceso) (a : Acceso) :
    paginas (h ++ [a]) = insert a.aPagina (paginas h) := by
  ext p
  simp [paginas, eq_comm]

theorem paginas_concat_of_mem {h : List Acceso} {a : Acceso} (member : a ∈ h) :
    paginas (h ++ [a]) = paginas h := by
  rw [paginas_concat, Finset.insert_eq_of_mem (mem_paginas.mpr member)]

theorem distintos_concat_of_mem {h : List Acceso} {a : Acceso} (member : a ∈ h) :
    distintos (h ++ [a]) = distintos h := by
  simp only [distintos, paginas_concat_of_mem member]

theorem distintos_concat_of_not_mem {h : List Acceso} {a : Acceso} (fresh : a ∉ h) :
    distintos (h ++ [a]) = distintos h + 1 := by
  simp only [distintos, paginas_concat]
  exact Finset.card_insert_of_notMem (fun member => fresh (mem_paginas.mp member))

theorem distintos_le_concat (h : List Acceso) (a : Acceso) : distintos h ≤ distintos (h ++ [a]) := by
  simp only [distintos, paginas_concat]
  exact Finset.card_le_card (Finset.subset_insert _ _)

def entrada (procesos : Fin maxProcesos → Proceso) (a : Acceso) : Int :=
  (procesos a.indiceProceso).tablaPaginas a.indicePagina

structure TablasOk (h : List Acceso) (procesos : Fin maxProcesos → Proceso)
    (memoriaFisica : Fin numMarcos → Pagina) : Prop where
  pids : ∀ i, (procesos i).pid = -1 ∨ (procesos i).pid = i.val + 1
  existe : ∀ a ∈ h, (procesos a.indiceProceso).pid ≠ -1
  enMarco : ∀ f a, memoriaFisica f = a.aPagina → entrada procesos a = f.val + 1
  accedida : ∀ a ∈ h, entrada procesos a ≠ -1
  noAccedida : ∀ a, a ∉ h → (procesos a.indiceProceso).pid ≠ -1 → entrada procesos a = -1

structure AlmacenOk (modo : Modo) (h : List Acceso) (s : Sim) : Prop where
  guarda : Stores vacia s.almacen (paginas h)
  ram : ∀ f, s.memoriaFisica f ≠ vacia ↔ f.val < distintos h
  disco : ∀ d, s.memoriaSecundaria d ≠ vacia ↔ numMarcos + d.val < distintos h
  cupo : distintos h ≤ numMarcos + numDisco
  cursorDisco : s.indiceDISCO.val = (distintos h - numMarcos) % numDisco
  cursorRAM : modo = .fifo → distintos h < numMarcos → s.indiceRAM.val = distintos h

structure Integro (modo : Modo) (h : List Acceso) (s : Sim) : Prop where
  tablas : TablasOk h s.procesos s.memoriaFisica
  almacen : AlmacenOk modo h s

theorem inicial_integro (modo : Modo) (sinIniciar : Fin maxProcesos → Fin numPaginas → Int) :
    Integro modo [] (inicial sinIniciar) := by
  have sinPaginas : distintos [] = 0 := rfl
  constructor
  · constructor
    · intro i
      exact Or.inl rfl
    · simp
    · intro f a found
      exact absurd found.symm a.aPagina_ne_vacia
    · simp
    · intro a _ created
      exact absurd rfl created
  · constructor
    · have empty : (inicial sinIniciar).almacen = fun _ => vacia := by
        funext slot
        cases slot <;> rfl
      rw [empty]
      exact stores_nothing vacia
    · simp [sinPaginas, inicial]
    · simp [sinPaginas, inicial]
    · simp [sinPaginas]
    · simp [sinPaginas, inicial]
    · simp [sinPaginas, inicial]

/-! Creating the process of an access touches no table that already exists. -/

theorem crearProceso_existente (s : Sim) (a : Acceso) (i : Fin maxProcesos)
    (created : (s.procesos i).pid ≠ -1) : (s.crearProceso a).procesos i = s.procesos i := by
  simp only [Sim.crearProceso]
  split
  next missing =>
    have apart : i ≠ a.indiceProceso := fun same => created (same ▸ missing)
    simp [apart]
  next => rfl

theorem crearProceso_nuevo (s : Sim) (a b : Acceso)
    (missing : (s.procesos b.indiceProceso).pid = -1)
    (created : ((s.crearProceso a).procesos b.indiceProceso).pid ≠ -1) :
    entrada (s.crearProceso a).procesos b = -1 := by
  simp only [Sim.crearProceso, entrada] at created ⊢
  split at created
  next absent =>
    by_cases same : b.indiceProceso = a.indiceProceso
    · simp [absent, same]
    · simp [same, missing] at created
  next => exact absurd missing created

@[simp] theorem crearProceso_memoriaFisica (s : Sim) (a : Acceso) :
    (s.crearProceso a).memoriaFisica = s.memoriaFisica := by
  simp only [Sim.crearProceso]
  split <;> rfl

@[simp] theorem crearProceso_memoriaSecundaria (s : Sim) (a : Acceso) :
    (s.crearProceso a).memoriaSecundaria = s.memoriaSecundaria := by
  simp only [Sim.crearProceso]
  split <;> rfl

@[simp] theorem crearProceso_indiceDISCO (s : Sim) (a : Acceso) :
    (s.crearProceso a).indiceDISCO = s.indiceDISCO := by
  simp only [Sim.crearProceso]
  split <;> rfl

@[simp] theorem crearProceso_indiceRAM (s : Sim) (a : Acceso) :
    (s.crearProceso a).indiceRAM = s.indiceRAM := by
  simp only [Sim.crearProceso]
  split <;> rfl

@[simp] theorem crearProceso_tiempo (s : Sim) (a : Acceso) :
    (s.crearProceso a).tiempo = s.tiempo := by
  simp only [Sim.crearProceso]
  split <;> rfl

@[simp] theorem crearProceso_tiempoRAM (s : Sim) (a : Acceso) :
    (s.crearProceso a).tiempoRAM = s.tiempoRAM := by
  simp only [Sim.crearProceso]
  split <;> rfl

@[simp] theorem crearProceso_almacen (s : Sim) (a : Acceso) :
    (s.crearProceso a).almacen = s.almacen := by
  simp [Sim.almacen]

theorem crearProceso_pids {s : Sim} {a : Acceso}
    (pids : ∀ i, (s.procesos i).pid = -1 ∨ (s.procesos i).pid = i.val + 1) (i : Fin maxProcesos) :
    ((s.crearProceso a).procesos i).pid = -1 ∨ ((s.crearProceso a).procesos i).pid = i.val + 1 := by
  simp only [Sim.crearProceso]
  split
  next missing =>
    by_cases same : i = a.indiceProceso
    · subst i
      right
      simp [a.indiceProceso_val]
    · simpa [same] using pids i
  next => exact pids i

theorem crearProceso_pid {s : Sim} {a : Acceso}
    (pids : ∀ i, (s.procesos i).pid = -1 ∨ (s.procesos i).pid = i.val + 1) :
    ((s.crearProceso a).procesos a.indiceProceso).pid = a.pid := by
  by_cases missing : (s.procesos a.indiceProceso).pid = -1
  · simp [Sim.crearProceso, missing]
  · rw [crearProceso_existente s a _ missing, (pids _).resolve_left missing, a.indiceProceso_val]

theorem TablasOk.crear {h : List Acceso} {s : Sim}
    (ok : TablasOk h s.procesos s.memoriaFisica)
    (conocidas : ∀ f, s.memoriaFisica f ≠ vacia → s.memoriaFisica f ∈ paginas h) (a : Acceso) :
    TablasOk h (s.crearProceso a).procesos s.memoriaFisica := by
  have igual : ∀ b ∈ h, entrada (s.crearProceso a).procesos b = entrada s.procesos b := by
    intro b member
    simp only [entrada, crearProceso_existente s a _ (ok.existe b member)]
  constructor
  · exact crearProceso_pids ok.pids
  · intro b member
    rw [crearProceso_existente s a _ (ok.existe b member)]
    exact ok.existe b member
  · intro f b found
    have known := conocidas f (by rw [found]; exact b.aPagina_ne_vacia)
    rw [found, mem_paginas] at known
    rw [igual b known]
    exact ok.enMarco f b found
  · intro b member
    rw [igual b member]
    exact ok.accedida b member
  · intro b fresh created
    by_cases missing : (s.procesos b.indiceProceso).pid = -1
    · exact crearProceso_nuevo s a b missing created
    · simp only [entrada, crearProceso_existente s a _ missing]
      exact ok.noAccedida b fresh missing

theorem Integro.crear {modo : Modo} {h : List Acceso} {s : Sim} (ok : Integro modo h s)
    (a : Acceso) : Integro modo h (s.crearProceso a) := by
  have conocidas : ∀ f, s.memoriaFisica f ≠ vacia → s.memoriaFisica f ∈ paginas h :=
    fun f occupied => ok.almacen.guarda.sound (Sum.inl f) occupied
  constructor
  · rw [crearProceso_memoriaFisica]
    exact ok.tablas.crear conocidas a
  · exact ⟨by simpa using ok.almacen.guarda, by simpa using ok.almacen.ram,
      by simpa using ok.almacen.disco, ok.almacen.cupo, by simpa using ok.almacen.cursorDisco,
      by simpa using ok.almacen.cursorRAM⟩

/-! Giving a frame to a page writes one entry of one table. -/

theorem asignarMarco_pid (s : Sim) (a : Acceso) (f : Fin numMarcos) (marco : Pagina)
    (i : Fin maxProcesos) : ((s.asignarMarco a f marco).procesos i).pid = (s.procesos i).pid := by
  simp only [Sim.asignarMarco, update_apply]
  split
  next same => rw [same]
  next => rfl

theorem asignarMarco_entrada (s : Sim) (a : Acceso) (f : Fin numMarcos) (marco : Pagina) :
    entrada (s.asignarMarco a f marco).procesos a = f.val + 1 := by
  simp [entrada, Sim.asignarMarco]

theorem asignarMarco_entrada_ajena (s : Sim) {a b : Acceso} (f : Fin numMarcos) (marco : Pagina)
    (different : b ≠ a) :
    entrada (s.asignarMarco a f marco).procesos b = entrada s.procesos b := by
  by_cases proceso : b.indiceProceso = a.indiceProceso
  · have pagina : b.indicePagina ≠ a.indicePagina :=
      fun same => different (Acceso.eq_of_indices proceso same)
    simp [entrada, Sim.asignarMarco, proceso, pagina]
  · simp [entrada, Sim.asignarMarco, proceso]

theorem TablasOk.asignar {h : List Acceso} {s : Sim} {a : Acceso} (f : Fin numMarcos)
    (marco : Pagina) (ok : TablasOk h s.procesos s.memoriaFisica)
    (created : (s.procesos a.indiceProceso).pid = a.pid)
    (fueraRAM : ∀ i, s.memoriaFisica i ≠ a.aPagina) :
    TablasOk (h ++ [a]) (s.asignarMarco a f marco).procesos
      (update s.memoriaFisica f a.aPagina) := by
  constructor
  · intro i
    rw [asignarMarco_pid]
    exact ok.pids i
  · intro b member
    rw [asignarMarco_pid]
    rcases List.mem_append.mp member with old | new
    · exact ok.existe b old
    · rw [List.mem_singleton.mp new, created]
      have rango := a.pidRango
      omega
  · intro g b found
    by_cases same : g = f
    · subst g
      rw [update_self] at found
      rw [← Acceso.aPagina_injective found, asignarMarco_entrada]
    · rw [update_of_ne same] at found
      have different : b ≠ a := fun eq => fueraRAM g (eq ▸ found)
      rw [asignarMarco_entrada_ajena s f marco different]
      exact ok.enMarco g b found
  · intro b member
    by_cases same : b = a
    · rw [same, asignarMarco_entrada]
      omega
    · rw [asignarMarco_entrada_ajena s f marco same]
      exact ok.accedida b ((List.mem_append.mp member).resolve_right (by simp [same]))
  · intro b fresh exists'
    simp only [List.mem_append, List.mem_singleton, not_or] at fresh
    rw [asignarMarco_entrada_ajena s f marco fresh.2]
    rw [asignarMarco_pid] at exists'
    exact ok.noAccedida b fresh.1 exists'

/-! The arrays: what each kind of access does to the occupied prefix of each. -/

theorem mem_historia_ram {modo : Modo} {h : List Acceso} {s : Sim} (ok : AlmacenOk modo h s)
    {a : Acceso} {i : Fin numMarcos} (found : s.memoriaFisica i = a.aPagina) : a ∈ h := by
  have stored := ok.guarda.sound (Sum.inl i) (by
    simpa [Sim.almacen, found] using a.aPagina_ne_vacia)
  exact mem_paginas.mp (by simpa [Sim.almacen, found] using stored)

theorem mem_historia_disco {modo : Modo} {h : List Acceso} {s : Sim} (ok : AlmacenOk modo h s)
    {a : Acceso} {d : Fin numDisco} (found : s.memoriaSecundaria d = a.aPagina) : a ∈ h := by
  have stored := ok.guarda.sound (Sum.inr d) (by
    simpa [Sim.almacen, found] using a.aPagina_ne_vacia)
  exact mem_paginas.mp (by simpa [Sim.almacen, found] using stored)

theorem not_mem_historia {modo : Modo} {h : List Acceso} {s : Sim} (ok : AlmacenOk modo h s)
    {a : Acceso} (fueraRAM : ∀ i, s.memoriaFisica i ≠ a.aPagina)
    (fueraDisco : ∀ d, s.memoriaSecundaria d ≠ a.aPagina) : a ∉ h := by
  intro member
  obtain ⟨slot, found, _⟩ := ok.guarda.unique a.aPagina (mem_paginas.mpr member)
  cases slot with
  | inl i => exact fueraRAM i found
  | inr d => exact fueraDisco d found

/-- A page on the disk means that every frame was needed, so the one combination
that no branch of the loops handles never occurs. -/
theorem AlmacenOk.sinOmitidos {modo : Modo} {h : List Acceso} {s : Sim} (ok : AlmacenOk modo h s)
    {a : Acceso} {d : Fin numDisco} {libre : Fin numMarcos}
    (enDisco : s.memoriaSecundaria d = a.aPagina) (hueco : s.memoriaFisica libre = vacia) : False := by
  have onDisk := (ok.disco d).mp (by rw [enDisco]; exact a.aPagina_ne_vacia)
  have inside := libre.isLt
  exact (ok.ram libre).mpr (by omega) hueco

theorem disco_vacia_iff {modo : Modo} {h : List Acceso} {s : Sim} (ok : AlmacenOk modo h s)
    (d : Fin numDisco) : (s.memoriaSecundaria d).pid = -1 ↔ s.memoriaSecundaria d = vacia := by
  constructor
  · intro noPid
    by_contra occupied
    obtain ⟨a, _, same⟩ := exists_of_mem_paginas (ok.guarda.sound (Sum.inr d) occupied)
    have rango := a.pidRango
    change a.aPagina = s.memoriaSecundaria d at same
    rw [← same] at noPid
    simp only [Acceso.aPagina] at noPid
    omega
  · intro empty
    rw [empty]
    rfl

theorem AlmacenOk.libre_val {modo : Modo} {h : List Acceso} {s : Sim} (ok : AlmacenOk modo h s)
    {libre : Fin numMarcos} (hueco : s.memoriaFisica libre = vacia)
    (primero : ∀ j < libre, s.memoriaFisica j ≠ vacia) : libre.val = distintos h := by
  have notBelow : ¬libre.val < distintos h := fun below => (ok.ram libre).mpr below hueco
  by_contra different
  have bound := libre.isLt
  have before : (⟨distintos h, by omega⟩ : Fin numMarcos) < libre := by
    rw [Fin.lt_def]
    simp only
    omega
  exact lt_irrefl _ ((ok.ram _).mp (primero _ before))

theorem AlmacenOk.marcoDeCarga_val {modo : Modo} {h : List Acceso} {s : Sim}
    (ok : AlmacenOk modo h s) {libre : Fin numMarcos} (hueco : s.memoriaFisica libre = vacia)
    (primero : ∀ j < libre, s.memoriaFisica j ≠ vacia) :
    (s.marcoDeCarga modo libre).val = distintos h := by
  have lugar := ok.libre_val hueco primero
  cases modo with
  | fifo => exact ok.cursorRAM rfl (lugar ▸ libre.isLt)
  | lru => exact lugar

theorem AlmacenOk.lleno {modo : Modo} {h : List Acceso} {s : Sim} (ok : AlmacenOk modo h s)
    (sinHueco : ∀ i, s.memoriaFisica i ≠ vacia) : numMarcos ≤ distintos h := by
  have positive : 0 < numMarcos := by decide
  have last := (ok.ram ⟨numMarcos - 1, by omega⟩).mp (sinHueco _)
  simp only at last
  omega

theorem AlmacenOk.indiceDISCO_ocupado {modo : Modo} {h : List Acceso} {s : Sim}
    (ok : AlmacenOk modo h s) (sinHueco : ∀ i, s.memoriaFisica i ≠ vacia) :
    (s.memoriaSecundaria s.indiceDISCO).pid ≠ -1 ↔ distintos h = numMarcos + numDisco := by
  have full := ok.lleno sinHueco
  have positive : 0 < numDisco := by decide
  rw [Ne, disco_vacia_iff ok, ← Ne, ok.disco, ok.cursorDisco]
  constructor
  · intro occupied
    by_contra room
    rw [Nat.mod_eq_of_lt (by have := ok.cupo; omega)] at occupied
    omega
  · intro complete
    rw [complete, Nat.add_sub_cancel_left, Nat.mod_self]
    omega

theorem AlmacenOk.indiceDISCO_val {modo : Modo} {h : List Acceso} {s : Sim}
    (ok : AlmacenOk modo h s) (sinHueco : ∀ i, s.memoriaFisica i ≠ vacia)
    (desocupado : (s.memoriaSecundaria s.indiceDISCO).pid = -1) :
    s.indiceDISCO.val + numMarcos = distintos h := by
  have full := ok.lleno sinHueco
  have room : distintos h ≠ numMarcos + numDisco :=
    fun complete => (ok.indiceDISCO_ocupado sinHueco).mpr complete desocupado
  have below : distintos h - numMarcos < numDisco := by have := ok.cupo; omega
  rw [ok.cursorDisco, Nat.mod_eq_of_lt below]
  omega

theorem almacen_cargado {s siguiente : Sim} {f : Fin numMarcos} {p : Pagina}
    (memoriaFisica : siguiente.memoriaFisica = update s.memoriaFisica f p)
    (memoriaSecundaria : siguiente.memoriaSecundaria = s.memoriaSecundaria) :
    siguiente.almacen = update s.almacen (Sum.inl f) p := by
  rw [Sim.almacen, Sim.almacen, memoriaFisica, memoriaSecundaria, Sum.update_elim_inl]

theorem almacen_reemplazado {s siguiente : Sim} {f : Fin numMarcos} {d : Fin numDisco} {p : Pagina}
    (memoriaFisica : siguiente.memoriaFisica = update s.memoriaFisica f p)
    (memoriaSecundaria : siguiente.memoriaSecundaria =
      update s.memoriaSecundaria d (s.memoriaFisica f)) :
    siguiente.almacen = update
      (update s.almacen (Sum.inr d) (s.almacen (Sum.inl f))) (Sum.inl f) p := by
  rw [Sim.almacen, Sim.almacen, memoriaFisica, memoriaSecundaria, Sum.elim_inl,
    Sum.update_elim_inr, Sum.update_elim_inl]

theorem AlmacenOk.cargar {modo : Modo} {h : List Acceso} {s siguiente : Sim} {a : Acceso}
    {f : Fin numMarcos} (ok : AlmacenOk modo h s) (fresh : a ∉ h) (lugar : f.val = distintos h)
    (memoriaFisica : siguiente.memoriaFisica = update s.memoriaFisica f a.aPagina)
    (memoriaSecundaria : siguiente.memoriaSecundaria = s.memoriaSecundaria)
    (indiceDISCO : siguiente.indiceDISCO = s.indiceDISCO)
    (indiceRAM : modo = .fifo → siguiente.indiceRAM = advance s.indiceRAM) :
    AlmacenOk modo (h ++ [a]) siguiente := by
  have bound := f.isLt
  have hueco : s.memoriaFisica f = vacia := by
    by_contra occupied
    exact absurd ((ok.ram f).mp occupied) (by omega)
  have count := distintos_concat_of_not_mem fresh
  constructor
  · have stored := ok.guarda.put (Sum.inl f) hueco
      (fun member => fresh (mem_paginas.mp member)) a.aPagina_ne_vacia
    rw [paginas_concat, almacen_cargado memoriaFisica memoriaSecundaria]
    exact stored
  · intro g
    rw [memoriaFisica, count]
    by_cases same : g = f
    · simp [same, a.aPagina_ne_vacia, lugar]
    · have apart : g.val ≠ f.val := fun eq => same (Fin.ext eq)
      rw [update_of_ne same, ok.ram g]
      omega
  · intro d
    rw [memoriaSecundaria, count, ok.disco d]
    omega
  · omega
  · rw [indiceDISCO, ok.cursorDisco, count]
    congr 1
    omega
  · intro isFifo room
    rw [indiceRAM isFifo, advance_val, ok.cursorRAM isFifo (by omega), count]
    exact Nat.mod_eq_of_lt (by omega)

theorem AlmacenOk.desalojar {modo : Modo} {h : List Acceso} {s siguiente : Sim} {a : Acceso}
    {f : Fin numMarcos} (ok : AlmacenOk modo h s) (fresh : a ∉ h)
    (sinHueco : ∀ i, s.memoriaFisica i ≠ vacia)
    (desocupado : (s.memoriaSecundaria s.indiceDISCO).pid = -1)
    (memoriaFisica : siguiente.memoriaFisica = update s.memoriaFisica f a.aPagina)
    (memoriaSecundaria : siguiente.memoriaSecundaria =
      update s.memoriaSecundaria s.indiceDISCO (s.memoriaFisica f))
    (indiceDISCO : siguiente.indiceDISCO = advance s.indiceDISCO) :
    AlmacenOk modo (h ++ [a]) siguiente := by
  have cursor := ok.indiceDISCO_val sinHueco desocupado
  have full := ok.lleno sinHueco
  have bound := s.indiceDISCO.isLt
  have count := distintos_concat_of_not_mem fresh
  constructor
  · have stored := ok.guarda.displace (Sum.inl f) (Sum.inr s.indiceDISCO)
      ((disco_vacia_iff ok _).mp desocupado)
      (fun member => fresh (mem_paginas.mp member)) a.aPagina_ne_vacia
    rw [paginas_concat, almacen_reemplazado memoriaFisica memoriaSecundaria]
    exact stored
  · intro g
    have inside := g.isLt
    rw [memoriaFisica, count]
    by_cases same : g = f
    · simp only [same, update_self, ne_eq, a.aPagina_ne_vacia, not_false_eq_true, true_iff]
      have := f.isLt
      omega
    · rw [update_of_ne same]
      simp only [sinHueco g, ne_eq, not_false_eq_true, true_iff]
      omega
  · intro d
    rw [memoriaSecundaria, count]
    by_cases same : d = s.indiceDISCO
    · simp only [same, update_self, ne_eq, sinHueco f, not_false_eq_true, true_iff]
      omega
    · have apart : d.val ≠ s.indiceDISCO.val := fun eq => same (Fin.ext eq)
      rw [update_of_ne same, ok.disco d]
      omega
  · omega
  · rw [indiceDISCO, advance_val, count]
    congr 1
    omega
  · intro _ room
    omega

theorem AlmacenOk.intercambiar {modo : Modo} {h : List Acceso} {s siguiente : Sim} {a : Acceso}
    {f : Fin numMarcos} {d : Fin numDisco} (ok : AlmacenOk modo h s)
    (sinHueco : ∀ i, s.memoriaFisica i ≠ vacia) (enDisco : s.memoriaSecundaria d = a.aPagina)
    (memoriaFisica : siguiente.memoriaFisica = update s.memoriaFisica f a.aPagina)
    (memoriaSecundaria : siguiente.memoriaSecundaria =
      update s.memoriaSecundaria d (s.memoriaFisica f))
    (indiceDISCO : siguiente.indiceDISCO = s.indiceDISCO) :
    AlmacenOk modo (h ++ [a]) siguiente := by
  have full := ok.lleno sinHueco
  have known := mem_historia_disco ok enDisco
  have count := distintos_concat_of_mem known
  constructor
  · have stored := ok.guarda.exchange (Sum.inl f) (Sum.inr d)
    rw [paginas_concat_of_mem known, almacen_reemplazado memoriaFisica memoriaSecundaria, ← enDisco]
    exact stored
  · intro g
    rw [memoriaFisica, count, ← ok.ram g]
    by_cases same : g = f
    · simp [same, a.aPagina_ne_vacia, sinHueco f]
    · rw [update_of_ne same]
  · intro e
    rw [memoriaSecundaria, count, ← ok.disco e]
    by_cases same : e = d
    · simp [same, sinHueco f, enDisco, a.aPagina_ne_vacia]
    · rw [update_of_ne same]
  · rw [count]
    exact ok.cupo
  · rw [indiceDISCO, count]
    exact ok.cursorDisco
  · intro _ room
    omega

/-! Assembling one turn of the loop, and whole runs. -/

theorem marcoDe_eq {s : Sim} {a : Acceso} (created : (s.procesos a.indiceProceso).pid = a.pid) :
    s.marcoDe a = a.aPagina := by
  simp only [Sim.marcoDe, Acceso.aPagina, created]

theorem Integro.acertar {modo : Modo} {h : List Acceso} {s siguiente : Sim} {a : Acceso}
    (ok : Integro modo h s) (known : a ∈ h) (procesos : siguiente.procesos = s.procesos)
    (memoriaFisica : siguiente.memoriaFisica = s.memoriaFisica)
    (memoriaSecundaria : siguiente.memoriaSecundaria = s.memoriaSecundaria)
    (indiceDISCO : siguiente.indiceDISCO = s.indiceDISCO)
    (indiceRAM : modo = .fifo → siguiente.indiceRAM = s.indiceRAM) :
    Integro modo (h ++ [a]) siguiente := by
  have same : ∀ b, b ∈ h ++ [a] ↔ b ∈ h := by
    intro b
    simp only [List.mem_append, List.mem_singleton, or_iff_left_iff_imp]
    exact fun eq => eq ▸ known
  constructor
  · rw [procesos, memoriaFisica]
    exact ⟨ok.tablas.pids, fun b member => ok.tablas.existe b ((same b).mp member),
      ok.tablas.enMarco, fun b member => ok.tablas.accedida b ((same b).mp member),
      fun b fresh => ok.tablas.noAccedida b (fun member => fresh ((same b).mpr member))⟩
  · have almacen : siguiente.almacen = s.almacen := by
      rw [Sim.almacen, Sim.almacen, memoriaFisica, memoriaSecundaria]
    constructor
    · rw [almacen, paginas_concat_of_mem known]
      exact ok.almacen.guarda
    · rw [memoriaFisica, distintos_concat_of_mem known]
      exact ok.almacen.ram
    · rw [memoriaSecundaria, distintos_concat_of_mem known]
      exact ok.almacen.disco
    · rw [distintos_concat_of_mem known]
      exact ok.almacen.cupo
    · rw [indiceDISCO, distintos_concat_of_mem known]
      exact ok.almacen.cursorDisco
    · intro isFifo room
      rw [distintos_concat_of_mem known] at room ⊢
      rw [indiceRAM isFifo]
      exact ok.almacen.cursorRAM isFifo room

theorem Integro.paso {modo : Modo} {h : List Acceso} {s siguiente : Sim} {a : Acceso}
    (ok : Integro modo h s) (created : (s.procesos a.indiceProceso).pid = a.pid)
    (dado : Paso modo s a (.continua siguiente)) : Integro modo (h ++ [a]) siguiente := by
  have marco := marcoDe_eq created
  cases dado with
  | acierto i enRAM =>
      refine ok.acertar (mem_historia_ram ok.almacen enRAM) ?_ ?_ ?_ ?_ ?_
      · simp
      · simp
      · simp
      · simp
      · intro isFifo
        subst modo
        rfl
  | carga libre fueraRAM fueraDisco hueco primero =>
      constructor
      · rw [anotar_procesos, anotar_memoriaFisica]
        have tablas := ok.tablas.asignar (s.marcoDeCarga modo libre) (s.marcoDe a) created fueraRAM
        simpa only [Sim.asignarMarco, marco] using tablas
      · refine ok.almacen.cargar (not_mem_historia ok.almacen fueraRAM fueraDisco)
          (ok.almacen.marcoDeCarga_val hueco primero) ?_ ?_ ?_ ?_
        · simp [Sim.asignarMarco, marco]
        · simp [Sim.asignarMarco]
        · simp [Sim.asignarMarco]
        · intro isFifo
          subst modo
          rfl
  | desalojo fueraRAM fueraDisco sinHueco desocupado =>
      constructor
      · rw [anotar_procesos, anotar_memoriaFisica]
        have tablas := ok.tablas.asignar (s.victima modo) (s.marcoDe a) created fueraRAM
        simpa only [Sim.pasarDisco, Sim.asignarMarco, Sim.bajarADisco, marco] using tablas
      · refine ok.almacen.desalojar (f := s.victima modo)
          (not_mem_historia ok.almacen fueraRAM fueraDisco) sinHueco desocupado ?_ ?_ ?_
        · simp [Sim.pasarDisco, Sim.asignarMarco, Sim.bajarADisco, marco]
        · simp [Sim.pasarDisco, Sim.asignarMarco, Sim.bajarADisco]
        · simp [Sim.pasarDisco, Sim.asignarMarco, Sim.bajarADisco]
  | intercambio d fueraRAM enDisco sinHueco =>
      constructor
      · rw [anotar_procesos, anotar_memoriaFisica]
        have tablas := ok.tablas.asignar (s.victima modo) (s.memoriaSecundaria d) created fueraRAM
        simpa only [Sim.asignarMarco, Sim.bajarADisco, enDisco] using tablas
      · refine ok.almacen.intercambiar (f := s.victima modo) sinHueco enDisco ?_ ?_ ?_
        · simp [Sim.asignarMarco, Sim.bajarADisco, enDisco]
        · simp [Sim.asignarMarco, Sim.bajarADisco]
        · simp [Sim.asignarMarco, Sim.bajarADisco]
  | omitido d libre enDisco hueco => exact (ok.almacen.sinOmitidos enDisco hueco).elim

theorem Integro.turno {modo : Modo} {h : List Acceso} {s siguiente : Sim} {a : Acceso}
    (ok : Integro modo h s) (dado : turno modo s a = some siguiente) :
    Integro modo (h ++ [a]) siguiente :=
  (ok.crear a).paso (crearProceso_pid ok.tablas.pids) (turno_paso dado)

theorem correr_integro {modo : Modo} {sinIniciar : Fin maxProcesos → Fin numPaginas → Int}
    {h : List Acceso} {s : Sim} (corrida : correr modo sinIniciar h = some s) :
    Integro modo h s :=
  Runs.run_invariant (Integro modo) (inicial_integro modo sinIniciar)
    (fun _ _ _ _ ok dado => ok.turno dado) h s corrida

theorem paso_en_ram {modo : Modo} {h : List Acceso} {s siguiente : Sim} {a : Acceso}
    (ok : Integro modo h s) (created : (s.procesos a.indiceProceso).pid = a.pid)
    (dado : Paso modo s a (.continua siguiente)) :
    ∃ f, siguiente.memoriaFisica f = a.aPagina := by
  have marco := marcoDe_eq created
  cases dado with
  | acierto i enRAM => exact ⟨i, by simpa using enRAM⟩
  | carga libre _ _ _ _ =>
      exact ⟨s.marcoDeCarga modo libre, by simp [Sim.asignarMarco, marco]⟩
  | desalojo _ _ _ _ =>
      exact ⟨s.victima modo, by simp [Sim.pasarDisco, Sim.asignarMarco, marco]⟩
  | intercambio d _ enDisco _ =>
      exact ⟨s.victima modo, by simp [Sim.asignarMarco, enDisco]⟩
  | omitido d libre enDisco hueco => exact (ok.almacen.sinOmitidos enDisco hueco).elim

theorem correr_ultima_en_ram {modo : Modo} {sinIniciar : Fin maxProcesos → Fin numPaginas → Int}
    {h : List Acceso} {a : Acceso} {s : Sim} (corrida : correr modo sinIniciar (h ++ [a]) = some s) :
    ∃ f, s.memoriaFisica f = a.aPagina := by
  obtain ⟨previo, antes, dado⟩ := Runs.run_concat_eq_some.mp corrida
  have ok := correr_integro antes
  exact paso_en_ram (ok.crear a) (crearProceso_pid ok.tablas.pids) (turno_paso dado)

/-- Storage integrity: after any accesses that did not fill the disk, the occupied
slots hold exactly the pages accessed, each page in one slot; the last page accessed
is in a frame; and the table entry of every page in a frame is that frame's number. -/
theorem almacen_integro (modo : Modo) (sinIniciar : Fin maxProcesos → Fin numPaginas → Int)
    (h : List Acceso) (s : Sim) (corrida : correr modo sinIniciar h = some s) :
    (∀ slot, s.almacen slot ≠ vacia → ∃ a ∈ h, s.almacen slot = a.aPagina) ∧
      (∀ a ∈ h, ∃! slot, s.almacen slot = a.aPagina) ∧
      (∀ a, h.getLast? = some a → ∃ f, s.memoriaFisica f = a.aPagina) ∧
      ∀ (f : Fin numMarcos) (a : Acceso), s.memoriaFisica f = a.aPagina →
        (s.procesos a.indiceProceso).tablaPaginas a.indicePagina = f.val + 1 := by
  have ok := correr_integro corrida
  refine ⟨?_, ?_, ?_, ok.tablas.enMarco⟩
  · intro slot occupied
    obtain ⟨a, member, same⟩ := exists_of_mem_paginas (ok.almacen.guarda.sound slot occupied)
    exact ⟨a, member, same.symm⟩
  · intro a member
    exact ok.almacen.guarda.unique a.aPagina (mem_paginas.mpr member)
  · intro a last
    obtain ⟨antes, same⟩ := List.getLast?_eq_some_iff.mp last
    subst h
    exact correr_ultima_en_ram corrida

theorem almacen_integro_ejemplo : ∃ s, correr .fifo (fun _ _ => 0) entradaEjemplo = some s ∧
    ∀ a ∈ entradaEjemplo, ∃! slot, s.almacen slot = a.aPagina := by
  obtain ⟨s, corrida⟩ := Option.isSome_iff_exists.mp
    (show (correr .fifo (fun _ _ => 0) entradaEjemplo).isSome = true by decide)
  exact ⟨s, corrida, (almacen_integro .fifo _ _ s corrida).2.1⟩

end OsLabs.Paging
