import Mathlib.Data.Sum.Basic
import OsLabs.Paging.PagingCore

/-!
What one access can do, stated once for both modes: the outcome is a hit, a
first load, an eviction, an exchange with the disk, a full disk, or nothing.
The modes differ only in the frame they pick and in their own bookkeeping.
-/

namespace OsLabs.Paging

open OsLabs.Cyclic

theorem Acceso.aPagina_injective : Function.Injective Acceso.aPagina := by
  intro a b same
  obtain ⟨pid, pagina, _, _⟩ := a
  obtain ⟨pid', pagina', _, _⟩ := b
  simp only [Acceso.aPagina, Pagina.mk.injEq] at same
  simp [same]

theorem Acceso.aPagina_ne_vacia (a : Acceso) : a.aPagina ≠ vacia := by
  intro same
  have rango := a.pidRango
  simp only [Acceso.aPagina, vacia, Pagina.mk.injEq] at same
  omega

theorem Acceso.indiceProceso_val (a : Acceso) : ((a.indiceProceso : Nat) : Int) + 1 = a.pid := by
  have rango := a.pidRango
  simp only [Acceso.indiceProceso]
  omega

theorem Acceso.indicePagina_val (a : Acceso) : ((a.indicePagina : Nat) : Int) + 1 = a.pagina := by
  have rango := a.paginaRango
  simp only [Acceso.indicePagina]
  omega

theorem Acceso.eq_of_indices {a b : Acceso} (proceso : b.indiceProceso = a.indiceProceso)
    (pagina : b.indicePagina = a.indicePagina) : b = a := by
  apply Acceso.aPagina_injective
  simp only [Acceso.aPagina, Pagina.mk.injEq]
  rw [← a.indiceProceso_val, ← b.indiceProceso_val, ← a.indicePagina_val, ← b.indicePagina_val,
    proceso, pagina]
  exact ⟨rfl, rfl⟩

theorem pagina_match (p : Pagina) (pid pagina : Int) :
    (p.pid == pid && p.pagina == pagina) = true ↔ p = ⟨pid, pagina⟩ := by
  cases p
  simp

theorem pagina_mismatch (p : Pagina) (pid pagina : Int) :
    (p.pid == pid && p.pagina == pagina) = false ↔ p ≠ ⟨pid, pagina⟩ := by
  rw [← Bool.not_eq_true, pagina_match]

theorem buscarRAM_some {s : Sim} {a : Acceso} {i : Fin numMarcos} (found : s.buscarRAM a = some i) :
    s.memoriaFisica i = a.aPagina :=
  (pagina_match _ _ _).mp (Fin.find?_eq_some_iff.mp found).1

theorem buscarRAM_none {s : Sim} {a : Acceso} :
    s.buscarRAM a = none ↔ ∀ i, s.memoriaFisica i ≠ a.aPagina := by
  simp only [Sim.buscarRAM, Fin.find?_eq_none_iff, pagina_mismatch, Acceso.aPagina]

theorem buscarDISCO_some {s : Sim} {a : Acceso} {d : Fin numDisco}
    (found : s.buscarDISCO a = some d) : s.memoriaSecundaria d = a.aPagina :=
  (pagina_match _ _ _).mp (Fin.find?_eq_some_iff.mp found).1

theorem buscarDISCO_none {s : Sim} {a : Acceso} :
    s.buscarDISCO a = none ↔ ∀ d, s.memoriaSecundaria d ≠ a.aPagina := by
  simp only [Sim.buscarDISCO, Fin.find?_eq_none_iff, pagina_mismatch, Acceso.aPagina]

theorem lugarEnRAM_some {s : Sim} {libre : Fin numMarcos} (found : s.lugarEnRAM = some libre) :
    s.memoriaFisica libre = vacia ∧ ∀ j < libre, s.memoriaFisica j ≠ vacia := by
  obtain ⟨here, before⟩ := Fin.find?_eq_some_iff.mp found
  exact ⟨(pagina_match _ _ _).mp here, fun j less => (pagina_mismatch _ _ _).mp (before j less)⟩

theorem lugarEnRAM_none {s : Sim} : s.lugarEnRAM = none ↔ ∀ i, s.memoriaFisica i ≠ vacia := by
  simp only [Sim.lugarEnRAM, Fin.find?_eq_none_iff, pagina_mismatch, vacia]

inductive Suceso where
  | acierto (i : Fin numMarcos)
  | carga (libre : Fin numMarcos)
  | reemplazo (f : Fin numMarcos)

def Sim.anotar (s : Sim) : Modo → Suceso → Sim
  | .fifo, .acierto _ => s
  | .fifo, .carga _ => { s with indiceRAM := advance s.indiceRAM }
  | .fifo, .reemplazo _ => { s with indiceRAM := advance s.indiceRAM }
  | .lru, .acierto i =>
      { s with tiempoRAM := Function.update s.tiempoRAM i (cInt (maxTiempo s.tiempoRAM + 1)) }
  | .lru, .carga libre =>
      { s with
        tiempoRAM := Function.update s.tiempoRAM libre s.tiempo
        tiempo := cInt (s.tiempo + 1) }
  | .lru, .reemplazo f => { s with tiempoRAM := sellarDesalojo s.tiempoRAM f }

@[simp] theorem anotar_procesos (s : Sim) (modo : Modo) (suceso : Suceso) :
    (s.anotar modo suceso).procesos = s.procesos := by
  cases modo <;> cases suceso <;> rfl

@[simp] theorem anotar_memoriaFisica (s : Sim) (modo : Modo) (suceso : Suceso) :
    (s.anotar modo suceso).memoriaFisica = s.memoriaFisica := by
  cases modo <;> cases suceso <;> rfl

@[simp] theorem anotar_memoriaSecundaria (s : Sim) (modo : Modo) (suceso : Suceso) :
    (s.anotar modo suceso).memoriaSecundaria = s.memoriaSecundaria := by
  cases modo <;> cases suceso <;> rfl

@[simp] theorem anotar_indiceDISCO (s : Sim) (modo : Modo) (suceso : Suceso) :
    (s.anotar modo suceso).indiceDISCO = s.indiceDISCO := by
  cases modo <;> cases suceso <;> rfl

def Sim.marcoDeCarga (s : Sim) : Modo → Fin numMarcos → Fin numMarcos
  | .fifo, _ => s.indiceRAM
  | .lru, libre => libre

def Sim.victima (s : Sim) : Modo → Fin numMarcos
  | .fifo => s.indiceRAM
  | .lru => indiceMin s.tiempoRAM

def Sim.pasarDisco (s : Sim) : Sim := { s with indiceDISCO := advance s.indiceDISCO }

inductive Paso (modo : Modo) (s : Sim) (a : Acceso) : Resultado → Prop
  | acierto (i : Fin numMarcos) (enRAM : s.memoriaFisica i = a.aPagina) :
      Paso modo s a (.continua (s.anotar modo (.acierto i)))
  | carga (libre : Fin numMarcos) (fueraRAM : ∀ i, s.memoriaFisica i ≠ a.aPagina)
      (fueraDisco : ∀ d, s.memoriaSecundaria d ≠ a.aPagina)
      (hueco : s.memoriaFisica libre = vacia) (primero : ∀ j < libre, s.memoriaFisica j ≠ vacia) :
      Paso modo s a (.continua
        ((s.asignarMarco a (s.marcoDeCarga modo libre) (s.marcoDe a)).anotar modo (.carga libre)))
  | llena (fueraRAM : ∀ i, s.memoriaFisica i ≠ a.aPagina)
      (fueraDisco : ∀ d, s.memoriaSecundaria d ≠ a.aPagina) (sinHueco : ∀ i, s.memoriaFisica i ≠ vacia)
      (ocupado : (s.memoriaSecundaria s.indiceDISCO).pid ≠ -1) : Paso modo s a (.llena s)
  | desalojo (fueraRAM : ∀ i, s.memoriaFisica i ≠ a.aPagina)
      (fueraDisco : ∀ d, s.memoriaSecundaria d ≠ a.aPagina) (sinHueco : ∀ i, s.memoriaFisica i ≠ vacia)
      (desocupado : (s.memoriaSecundaria s.indiceDISCO).pid = -1) :
      Paso modo s a (.continua
        (((s.bajarADisco (s.victima modo) s.indiceDISCO).asignarMarco a (s.victima modo)
          (s.marcoDe a)).pasarDisco.anotar modo (.reemplazo (s.victima modo))))
  | intercambio (d : Fin numDisco) (fueraRAM : ∀ i, s.memoriaFisica i ≠ a.aPagina)
      (enDisco : s.memoriaSecundaria d = a.aPagina) (sinHueco : ∀ i, s.memoriaFisica i ≠ vacia) :
      Paso modo s a (.continua
        (((s.bajarADisco (s.victima modo) d).asignarMarco a (s.victima modo)
          (s.memoriaSecundaria d)).anotar modo (.reemplazo (s.victima modo))))
  | omitido (d : Fin numDisco) (libre : Fin numMarcos)
      (enDisco : s.memoriaSecundaria d = a.aPagina) (hueco : s.memoriaFisica libre = vacia) :
      Paso modo s a (.continua s)

theorem acceso_paso (modo : Modo) (s : Sim) (a : Acceso) :
    Paso modo (s.crearProceso a) a (acceso modo s a) := by
  cases modo
  all_goals
    simp only [acceso, accesoFIFO, accesoLRU]
    split
    next _ _ _ i enRAM => exact Paso.acierto i (buscarRAM_some enRAM)
    next _ _ _ libre fueraRAM fueraDisco hueco =>
      exact Paso.carga libre (buscarRAM_none.mp fueraRAM) (buscarDISCO_none.mp fueraDisco)
        (lugarEnRAM_some hueco).1 (lugarEnRAM_some hueco).2
    next _ _ _ fueraRAM fueraDisco sinHueco =>
      split
      next ocupado =>
        exact Paso.llena (buscarRAM_none.mp fueraRAM) (buscarDISCO_none.mp fueraDisco)
          (lugarEnRAM_none.mp sinHueco) ocupado
      next desocupado =>
        exact Paso.desalojo (buscarRAM_none.mp fueraRAM) (buscarDISCO_none.mp fueraDisco)
          (lugarEnRAM_none.mp sinHueco) (not_not.mp desocupado)
    next _ _ _ d fueraRAM enDisco sinHueco =>
      exact Paso.intercambio d (buscarRAM_none.mp fueraRAM) (buscarDISCO_some enDisco)
        (lugarEnRAM_none.mp sinHueco)
    next _ _ _ d libre _ enDisco hueco =>
      exact Paso.omitido d libre (buscarDISCO_some enDisco) (lugarEnRAM_some hueco).1

theorem turno_eq_some {modo : Modo} {s siguiente : Sim} {a : Acceso} :
    turno modo s a = some siguiente ↔ acceso modo s a = .continua siguiente := by
  simp only [turno]
  split
  next s' resultado => simp [resultado]
  next s' resultado => simp [resultado]

theorem turno_paso {modo : Modo} {s siguiente : Sim} {a : Acceso}
    (dado : turno modo s a = some siguiente) :
    Paso modo (s.crearProceso a) a (.continua siguiente) := by
  rw [← turno_eq_some.mp dado]
  exact acceso_paso modo s a

end OsLabs.Paging
