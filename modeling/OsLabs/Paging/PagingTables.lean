import OsLabs.Paging.PagingCapacity

/-!
Stale page-table entries. No branch of the simulator ever clears the entry of a
page that it moves to the disk, so an entry is stale exactly while its page is there.
-/

namespace OsLabs.Paging

def SinEntradasViejas (s : Sim) : Prop :=
  ∀ a : Acceso, (s.procesos a.indiceProceso).pid ≠ -1 → entrada s.procesos a ≠ -1 →
    ∃ f : Fin numMarcos, entrada s.procesos a = f.val + 1 ∧ s.memoriaFisica f = a.aPagina

theorem entrada_vieja_en_disco {modo : Modo} {h : List Acceso} {s : Sim} (ok : Integro modo h s)
    {a : Acceso} {d : Fin numDisco} (enDisco : s.memoriaSecundaria d = a.aPagina) :
    ¬SinEntradasViejas s := by
  intro frescas
  have known := mem_historia_disco ok.almacen enDisco
  obtain ⟨f, _, enRAM⟩ := frescas a (ok.tablas.existe a known) (ok.tablas.accedida a known)
  have both : s.almacen (Sum.inl f) = s.almacen (Sum.inr d) := by
    simp [Sim.almacen, enRAM, enDisco]
  have impossible := ok.almacen.guarda.injective_on
    (by simpa [Sim.almacen, enRAM] using a.aPagina_ne_vacia) both
  exact Sum.inl_ne_inr impossible

theorem sin_entradas_viejas_de_pocas {modo : Modo} {h : List Acceso} {s : Sim}
    (ok : Integro modo h s) (pocas : distintos h ≤ numMarcos) : SinEntradasViejas s := by
  intro a created used
  by_cases known : a ∈ h
  · obtain ⟨slot, found, _⟩ := ok.almacen.guarda.unique a.aPagina (mem_paginas.mpr known)
    cases slot with
    | inl f =>
        change s.memoriaFisica f = a.aPagina at found
        exact ⟨f, ok.tablas.enMarco f a found, found⟩
    | inr d =>
        change s.memoriaSecundaria d = a.aPagina at found
        have onDisk := (ok.almacen.disco d).mp (by rw [found]; exact a.aPagina_ne_vacia)
        omega
  · exact absurd (ok.tablas.noAccedida a known created) used

theorem sin_entradas_viejas_estado {modo : Modo} {h : List Acceso} {s : Sim}
    (ok : Integro modo h s) : SinEntradasViejas s ↔ distintos h ≤ numMarcos := by
  constructor
  · intro frescas
    by_contra many
    have occupied := (ok.almacen.disco 0).mpr (by simpa using many)
    obtain ⟨a, _, same⟩ := exists_of_mem_paginas (ok.almacen.guarda.sound (Sum.inr 0) occupied)
    exact entrada_vieja_en_disco ok same.symm frescas
  · exact sin_entradas_viejas_de_pocas ok

theorem distintos_le_of_inicio {antes h : List Acceso} (inside : antes <+: h) :
    distintos antes ≤ distintos h := by
  apply Finset.card_le_card
  intro p member
  obtain ⟨a, known, same⟩ := exists_of_mem_paginas member
  rw [← same, mem_paginas]
  exact inside.subset known

theorem exists_inicio_distintos (h : List Acceso) {count : Nat} (many : count ≤ distintos h) :
    ∃ antes, antes <+: h ∧ distintos antes = count := by
  induction h using List.reverseRecOn with
  | nil => exact ⟨[], List.prefix_refl _, by simpa [distintos, paginas, eq_comm] using many⟩
  | append_singleton h a ih =>
      by_cases enough : count ≤ distintos h
      · obtain ⟨antes, inside, reached⟩ := ih enough
        exact ⟨antes, inside.trans (List.prefix_append h [a]), reached⟩
      · refine ⟨h ++ [a], List.prefix_refl _, ?_⟩
        have fresh : a ∉ h := by
          intro known
          rw [distintos_concat_of_mem known] at many
          exact enough many
        rw [distintos_concat_of_not_mem fresh] at many ⊢
        omega

/-- The tables stay free of stale entries through the whole run exactly when the
run accesses no more distinct pages than there are frames, so that nothing is evicted. -/
theorem sin_entradas_viejas_iff (modo : Modo)
    (sinIniciar : Fin maxProcesos → Fin numPaginas → Int) (h : List Acceso) :
    (∀ antes s, antes <+: h → correr modo sinIniciar antes = some s → SinEntradasViejas s) ↔
      distintos h ≤ numMarcos := by
  constructor
  · intro siempre
    by_contra many
    obtain ⟨antes, inside, count⟩ := exists_inicio_distintos h (Nat.lt_of_not_le many)
    have room : distintos antes ≤ numMarcos + numDisco := by
      have positive : 0 < numDisco := by decide
      omega
    obtain ⟨s, corrida⟩ := (correr_some_iff modo sinIniciar antes).mpr room
    have few := (sin_entradas_viejas_estado (correr_integro corrida)).mp (siempre antes s inside corrida)
    omega
  · intro few antes s inside corrida
    apply (sin_entradas_viejas_estado (correr_integro corrida)).mpr
    exact le_trans (distintos_le_of_inicio inside) few

/-- After nine pages of one process, page 1 is on the disk and its entry still names
frame 1, which holds page 9. -/
theorem entrada_vieja_ejemplo : ∃ s, correr .fifo (fun _ _ => 0) (recorrido 9) = some s ∧
    entrada s.procesos ⟨1, 1, by decide, by decide⟩ = 1 ∧ s.memoriaFisica 0 = ⟨1, 9⟩ ∧
    s.memoriaSecundaria 0 = ⟨1, 1⟩ ∧ ¬SinEntradasViejas s := by
  have observado : (correr .fifo (fun _ _ => 0) (recorrido 9)).map (fun s =>
      (entrada s.procesos ⟨1, 1, by decide, by decide⟩, s.memoriaFisica 0, s.memoriaSecundaria 0)) =
      some (1, ⟨1, 9⟩, ⟨1, 1⟩) := by decide +kernel
  obtain ⟨s, corrida, valores⟩ := Option.map_eq_some_iff.mp observado
  simp only [Prod.mk.injEq] at valores
  have enDisco : s.memoriaSecundaria 0 = Acceso.aPagina ⟨1, 1, by decide, by decide⟩ := valores.2.2
  exact ⟨s, corrida, valores.1, valores.2.1, valores.2.2,
    entrada_vieja_en_disco (correr_integro corrida) enDisco⟩

end OsLabs.Paging
