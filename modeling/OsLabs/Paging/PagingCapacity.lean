import OsLabs.Paging.PagingStorage

/-!
When the simulator runs out of room. The disk cursor wraps, but the occupied
slots stay a prefix of the array through every exchange, so one slot decides.
-/

namespace OsLabs.Paging

theorem acceso_llena_iff {modo : Modo} {sinIniciar : Fin maxProcesos → Fin numPaginas → Int}
    {h : List Acceso} {s : Sim} (corrida : correr modo sinIniciar h = some s) (a : Acceso) :
    (∃ s', acceso modo s a = .llena s') ↔ a ∉ h ∧ distintos h = numMarcos + numDisco := by
  have ok := (correr_integro corrida).crear a
  have dado := acceso_paso modo s a
  constructor
  · rintro ⟨s', resultado⟩
    rw [resultado] at dado
    cases dado with
    | llena fueraRAM fueraDisco sinHueco ocupado =>
        exact ⟨not_mem_historia ok.almacen fueraRAM fueraDisco,
          (ok.almacen.indiceDISCO_ocupado sinHueco).mp ocupado⟩
  · rintro ⟨fresh, complete⟩
    cases resultado : acceso modo s a with
    | llena s' => exact ⟨s', rfl⟩
    | continua siguiente =>
        rw [resultado] at dado
        have room := (ok.paso (crearProceso_pid (correr_integro corrida).tablas.pids) dado).almacen.cupo
        rw [distintos_concat_of_not_mem fresh] at room
        omega

theorem acceso_llena_eq {modo : Modo} {s s' : Sim} {a : Acceso}
    (resultado : acceso modo s a = .llena s') : s' = s.crearProceso a := by
  have dado := acceso_paso modo s a
  rw [resultado] at dado
  cases dado
  rfl

theorem correr_some_iff (modo : Modo) (sinIniciar : Fin maxProcesos → Fin numPaginas → Int)
    (h : List Acceso) :
    (∃ s, correr modo sinIniciar h = some s) ↔ distintos h ≤ numMarcos + numDisco := by
  constructor
  · rintro ⟨s, corrida⟩
    exact (correr_integro corrida).almacen.cupo
  · induction h using List.reverseRecOn with
    | nil =>
        intro _
        exact ⟨inicial sinIniciar, rfl⟩
    | append_singleton h a ih =>
        intro room
        have mono := distintos_le_concat h a
        obtain ⟨s, corrida⟩ := ih (by omega)
        cases resultado : acceso modo s a with
        | continua siguiente =>
            exact ⟨siguiente, Runs.run_concat_eq_some.mpr ⟨s, corrida, turno_eq_some.mpr resultado⟩⟩
        | llena s' =>
            obtain ⟨fresh, complete⟩ := (acceso_llena_iff corrida a).mp ⟨s', resultado⟩
            rw [distintos_concat_of_not_mem fresh] at room
            omega

theorem ciclo_parada_iff (modo : Modo) (s final : Sim) (leidos k : Nat) (accesos : List Acceso) :
    ciclo modo s leidos accesos = (final, some k) ↔
      ∃ antes a resto previo, accesos = antes ++ a :: resto ∧ leidos + antes.length = k ∧
        Runs.run (turno modo) s antes = some previo ∧ acceso modo previo a = .llena final := by
  induction accesos generalizing s leidos with
  | nil => simp [ciclo]
  | cons first rest ih =>
      simp only [ciclo]
      constructor
      · intro stopped
        split at stopped
        next siguiente resultado =>
          obtain ⟨antes, a, resto, previo, split, count, reached, full⟩ :=
            (ih siguiente (leidos + 1)).mp stopped
          refine ⟨first :: antes, a, resto, previo, by simp [split], ?_, ?_, full⟩
          · simp only [List.length_cons]
            omega
          · rw [Runs.run_cons, turno_eq_some.mpr resultado]
            exact reached
        next s' resultado =>
          simp only [Prod.mk.injEq, Option.some.injEq] at stopped
          exact ⟨[], first, rest, s, rfl, by simpa using stopped.2, rfl, stopped.1 ▸ resultado⟩
      · rintro ⟨antes, a, resto, previo, split, count, reached, full⟩
        cases antes with
        | nil =>
            simp only [List.nil_append, List.cons.injEq] at split
            simp only [Runs.run_nil, Option.some.injEq] at reached
            rw [split.1, reached, full]
            simpa using count
        | cons head tail =>
            simp only [List.cons_append, List.cons.injEq] at split
            rw [Runs.run_cons, Option.bind_eq_some_iff] at reached
            obtain ⟨siguiente, moved, reached⟩ := reached
            rw [split.1, turno_eq_some.mp moved]
            refine (ih siguiente (leidos + 1)).mpr ⟨tail, a, resto, previo, split.2, ?_, reached, full⟩
            simp only [List.length_cons] at count
            omega

theorem parada_iff (modo : Modo) (sinIniciar : Fin maxProcesos → Fin numPaginas → Int)
    (accesos : List Acceso) (k : Nat) :
    parada modo sinIniciar accesos = some k ↔
      ∃ antes a resto, accesos = antes ++ a :: resto ∧ antes.length = k ∧ a ∉ antes ∧
        distintos antes = numMarcos + numDisco := by
  constructor
  · intro stopped
    have whole : ciclo modo (inicial sinIniciar) 0 accesos =
        ((ciclo modo (inicial sinIniciar) 0 accesos).1, some k) := Prod.ext rfl stopped
    obtain ⟨antes, a, resto, previo, split, count, reached, full⟩ :=
      (ciclo_parada_iff modo _ _ 0 k accesos).mp whole
    have corrida : correr modo sinIniciar antes = some previo := reached
    exact ⟨antes, a, resto, split, by simpa using count, (acceso_llena_iff corrida a).mp ⟨_, full⟩⟩
  · rintro ⟨antes, a, resto, split, count, fresh, complete⟩
    obtain ⟨previo, corrida⟩ := (correr_some_iff modo sinIniciar antes).mpr complete.le
    obtain ⟨final, full⟩ := (acceso_llena_iff corrida a).mpr ⟨fresh, complete⟩
    have whole := (ciclo_parada_iff modo (inicial sinIniciar) final 0 k accesos).mpr
      ⟨antes, a, resto, previo, split, by simpa using count, corrida, full⟩
    rw [parada, whole]

/-- Capacity: each mode breaks out of its loop exactly at the first access to the
25th distinct page, with both arrays and every existing process as they were before
that access; so both modes stop at the same access. -/
theorem capacidad_exacta (sinIniciar : Fin maxProcesos → Fin numPaginas → Int)
    (accesos : List Acceso) :
    (∀ modo k, parada modo sinIniciar accesos = some k ↔
      ∃ antes a resto, accesos = antes ++ a :: resto ∧ antes.length = k ∧ a ∉ antes ∧
        distintos antes = 24) ∧
      (∀ modo k, parada modo sinIniciar accesos = some k →
        ∃ previo, correr modo sinIniciar (accesos.take k) = some previo ∧
          (ciclo modo (inicial sinIniciar) 0 accesos).1.memoriaFisica = previo.memoriaFisica ∧
          (ciclo modo (inicial sinIniciar) 0 accesos).1.memoriaSecundaria =
            previo.memoriaSecundaria ∧
          ∀ i, (previo.procesos i).pid ≠ -1 →
            (ciclo modo (inicial sinIniciar) 0 accesos).1.procesos i = previo.procesos i) ∧
      parada .fifo sinIniciar accesos = parada .lru sinIniciar accesos := by
  have slots : numMarcos + numDisco = 24 := rfl
  refine ⟨?_, ?_, ?_⟩
  · intro modo k
    rw [parada_iff, slots]
  · intro modo k stopped
    have whole : ciclo modo (inicial sinIniciar) 0 accesos =
        ((ciclo modo (inicial sinIniciar) 0 accesos).1, some k) := Prod.ext rfl stopped
    obtain ⟨antes, a, resto, previo, split, count, reached, full⟩ :=
      (ciclo_parada_iff modo _ _ 0 k accesos).mp whole
    have taken : accesos.take k = antes := by
      rw [split, ← count, Nat.zero_add, List.take_left]
    rw [acceso_llena_eq full]
    refine ⟨previo, by rw [taken]; exact reached, by simp, by simp, ?_⟩
    intro i created
    exact crearProceso_existente previo a i created
  · ext k
    rw [parada_iff, parada_iff]

end OsLabs.Paging
