import OsLabs.Foundation.RingQueue
import OsLabs.Paging.PagingCapacity

/-!
The FIFO mode refines a bounded queue: read from the cursor onwards, the frames
list the resident pages in the order in which they entered.
-/

namespace OsLabs.Paging

open OsLabs.Cyclic OsLabs.RingQueue

def colaReferencia (h : List Acceso) : List Pagina :=
  (h.map Acceso.aPagina).foldl (fetch numMarcos) []

theorem colaReferencia_concat (h : List Acceso) (a : Acceso) :
    colaReferencia (h ++ [a]) = fetch numMarcos (colaReferencia h) a.aPagina := by
  simp [colaReferencia]

def EnOrden (h : List Acceso) (s : Sim) : Prop :=
  contents vacia s.memoriaFisica s.indiceRAM = colaReferencia h

theorem EnOrden.reemplazar {h : List Acceso} {s siguiente : Sim} {a : Acceso} (orden : EnOrden h s)
    (fueraRAM : ∀ i, s.memoriaFisica i ≠ a.aPagina)
    (cursorLibre : ∀ i, s.memoriaFisica i = vacia → s.memoriaFisica s.indiceRAM = vacia)
    (memoriaFisica : siguiente.memoriaFisica =
      Function.update s.memoriaFisica s.indiceRAM a.aPagina)
    (indiceRAM : siguiente.indiceRAM = advance s.indiceRAM) : EnOrden (h ++ [a]) siguiente := by
  have served := fetch_contents vacia s.memoriaFisica s.indiceRAM a.aPagina a.aPagina_ne_vacia
    fueraRAM cursorLibre
  rw [EnOrden, memoriaFisica, indiceRAM, colaReferencia_concat, ← orden, ← served]

theorem EnOrden.paso {h : List Acceso} {s siguiente : Sim} {a : Acceso} (ok : Integro .fifo h s)
    (created : (s.procesos a.indiceProceso).pid = a.pid) (orden : EnOrden h s)
    (dado : Paso .fifo s a (.continua siguiente)) : EnOrden (h ++ [a]) siguiente := by
  have marco := marcoDe_eq created
  cases dado with
  | acierto i enRAM =>
      have present : a.aPagina ∈ colaReferencia h := by
        rw [← orden, mem_contents]
        exact ⟨a.aPagina_ne_vacia, i, enRAM⟩
      rw [EnOrden, colaReferencia_concat, fetch, if_pos present]
      exact orden
  | carga libre fueraRAM fueraDisco hueco primero =>
      have cursor := ok.almacen.marcoDeCarga_val hueco primero
      have cursorLibre : s.memoriaFisica s.indiceRAM = vacia := by
        by_contra occupied
        have below := (ok.almacen.ram s.indiceRAM).mp occupied
        simp only [Sim.marcoDeCarga] at cursor
        omega
      refine orden.reemplazar fueraRAM (fun _ _ => cursorLibre) ?_ rfl
      simp [Sim.asignarMarco, Sim.marcoDeCarga, marco]
  | desalojo fueraRAM fueraDisco sinHueco desocupado =>
      refine orden.reemplazar fueraRAM (fun i empty => absurd empty (sinHueco i)) ?_ rfl
      simp [Sim.pasarDisco, Sim.asignarMarco, Sim.bajarADisco, Sim.victima, marco]
  | intercambio d fueraRAM enDisco sinHueco =>
      refine orden.reemplazar fueraRAM (fun i empty => absurd empty (sinHueco i)) ?_ rfl
      simp [Sim.asignarMarco, Sim.bajarADisco, Sim.victima, enDisco]
  | omitido d libre enDisco hueco => exact (ok.almacen.sinOmitidos enDisco hueco).elim

theorem correr_enOrden {sinIniciar : Fin maxProcesos → Fin numPaginas → Int} {h : List Acceso}
    {s : Sim} (corrida : correr .fifo sinIniciar h = some s) : EnOrden h s := by
  have both : Integro .fifo h s ∧ EnOrden h s := by
    refine Runs.run_invariant (fun h s => Integro .fifo h s ∧ EnOrden h s) ?_ ?_ h s corrida
    · exact ⟨inicial_integro .fifo sinIniciar, contents_nothing vacia 0⟩
    · rintro h s a siguiente ⟨ok, orden⟩ dado
      have ordenCreado : EnOrden h (s.crearProceso a) := by simpa [EnOrden] using orden
      exact ⟨ok.turno dado, ordenCreado.paso (ok.crear a) (crearProceso_pid ok.tablas.pids)
        (turno_paso dado)⟩
  exact both.2

/-- FIFO policy: after every access that does not end the simulation the resident
pages are those of the reference queue, and the access that ends it, which the
program does not serve, leaves them as they were. -/
theorem fifo_refina_cola (sinIniciar : Fin maxProcesos → Fin numPaginas → Int) (h : List Acceso)
    (s : Sim) (corrida : correr .fifo sinIniciar h = some s) :
    s.residentes = {p | p ∈ colaReferencia h} ∧
      ∀ a s', acceso .fifo s a = .llena s' → s'.residentes = {p | p ∈ colaReferencia h} := by
  have orden := correr_enOrden corrida
  have igual : s.residentes = {p | p ∈ colaReferencia h} := by
    ext p
    rw [Set.mem_ofPred_eq, ← orden, mem_contents]
    rfl
  refine ⟨igual, ?_⟩
  intro a s' full
  rw [acceso_llena_eq full, ← igual]
  simp [Sim.residentes]

theorem fifo_refina_cola_ejemplo : ∃ s, correr .fifo (fun _ _ => 0) (recorrido 9) = some s ∧
    s.residentes = {p | p ∈ colaReferencia (recorrido 9)} := by
  obtain ⟨s, corrida⟩ := Option.isSome_iff_exists.mp
    (show (correr .fifo (fun _ _ => 0) (recorrido 9)).isSome = true by decide +kernel)
  exact ⟨s, corrida, (fifo_refina_cola _ _ s corrida).1⟩

/-- The 25th distinct page, page 9 of process 2, ends the simulation: the reference queue
admits it and the program does not. -/
theorem fifo_ultimo_acceso_no_servido :
    parada .fifo (fun _ _ => 0) (recorrido 25) = some 24 ∧
      ⟨2, 9⟩ ∈ colaReferencia (recorrido 25) ∧
      ⟨2, 9⟩ ∉ (ciclo .fifo (inicial fun _ _ => 0) 0 (recorrido 25)).1.residentes := by
  refine ⟨by decide +kernel, by decide +kernel, ?_⟩
  rintro ⟨_, f, found⟩
  exact absurd found (by revert f; decide +kernel)

end OsLabs.Paging
