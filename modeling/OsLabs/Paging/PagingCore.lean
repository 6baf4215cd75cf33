import Mathlib.Algebra.Order.Ring.Int
import Mathlib.Data.Fintype.Basic
import OsLabs.Foundation.Cyclic
import OsLabs.Foundation.Runs
import OsLabs.Foundation.Scans

/-!
Executable model of the paging simulator `lab-07/sim.c`: the tables it keeps and
one turn of the access loop in each of its two modes, `-f` (FIFO) and `-l` (LRU).
-/

namespace OsLabs.Paging

open Function OsLabs.Cyclic OsLabs.Scans

def maxProcesos : Nat := 100
def tamanioMemoriaVirtual : Nat := 64
def tamanioMemoriaFisica : Nat := 32
def tamanioPagina : Nat := 4
def almacenamientoSecundario : Nat := 64

def numMarcos : Nat := tamanioMemoriaFisica / tamanioPagina
def numDisco : Nat := almacenamientoSecundario / tamanioPagina
def numPaginas : Nat := tamanioMemoriaVirtual / tamanioPagina

instance : NeZero numMarcos := ⟨by decide⟩
instance : NeZero numDisco := ⟨by decide⟩

/-- The value a C `int` keeps of `value`: two's complement in 32 bits. -/
def cInt (value : Int) : Int := value.bmod (2 ^ 32)

def intMax : Int := 2 ^ 31 - 1

structure Pagina where
  pid : Int
  pagina : Int
deriving DecidableEq, Repr

def vacia : Pagina := ⟨-1, -1⟩

structure Proceso where
  pid : Int
  tablaPaginas : Fin numPaginas → Int

/-- One access read from standard input, within the ranges the tables have room for. -/
structure Acceso where
  pid : Int
  pagina : Int
  pidRango : 1 ≤ pid ∧ pid ≤ maxProcesos
  paginaRango : 1 ≤ pagina ∧ pagina ≤ numPaginas
deriving DecidableEq

def Acceso.indiceProceso (a : Acceso) : Fin maxProcesos :=
  ⟨(a.pid - 1).toNat, by have := a.pidRango; omega⟩

def Acceso.indicePagina (a : Acceso) : Fin numPaginas :=
  ⟨(a.pagina - 1).toNat, by have := a.paginaRango; omega⟩

def Acceso.aPagina (a : Acceso) : Pagina := ⟨a.pid, a.pagina⟩

structure Sim where
  procesos : Fin maxProcesos → Proceso
  memoriaFisica : Fin numMarcos → Pagina
  memoriaSecundaria : Fin numDisco → Pagina
  indiceDISCO : Fin numDisco
  indiceRAM : Fin numMarcos
  tiempo : Int
  tiempoRAM : Fin numMarcos → Int

/-- The tables after the initialisation loops. The page tables of processes that
do not exist yet are never initialised, so they hold arbitrary values. -/
def inicial (sinIniciar : Fin maxProcesos → Fin numPaginas → Int) : Sim where
  procesos := fun i => ⟨-1, sinIniciar i⟩
  memoriaFisica := fun _ => vacia
  memoriaSecundaria := fun _ => vacia
  indiceDISCO := 0
  indiceRAM := 0
  tiempo := 0
  tiempoRAM := fun _ => 0

def Sim.crearProceso (s : Sim) (a : Acceso) : Sim :=
  if (s.procesos a.indiceProceso).pid = -1 then
    { s with procesos := update s.procesos a.indiceProceso ⟨a.pid, fun _ => -1⟩ }
  else s

def Sim.buscarRAM (s : Sim) (a : Acceso) : Option (Fin numMarcos) :=
  Fin.find? fun i => (s.memoriaFisica i).pid == a.pid && (s.memoriaFisica i).pagina == a.pagina

def Sim.buscarDISCO (s : Sim) (a : Acceso) : Option (Fin numDisco) :=
  Fin.find? fun i => (s.memoriaSecundaria i).pid == a.pid && (s.memoriaSecundaria i).pagina == a.pagina

def Sim.lugarEnRAM (s : Sim) : Option (Fin numMarcos) :=
  Fin.find? fun i => (s.memoriaFisica i).pid == -1 && (s.memoriaFisica i).pagina == -1

def Sim.marcoDe (s : Sim) (a : Acceso) : Pagina := ⟨(s.procesos a.indiceProceso).pid, a.pagina⟩

def Sim.asignarMarco (s : Sim) (a : Acceso) (f : Fin numMarcos) (marco : Pagina) : Sim :=
  let proceso := s.procesos a.indiceProceso
  { s with
    procesos := update s.procesos a.indiceProceso
      { proceso with tablaPaginas := update proceso.tablaPaginas a.indicePagina (f.val + 1) }
    memoriaFisica := update s.memoriaFisica f marco }

def Sim.bajarADisco (s : Sim) (f : Fin numMarcos) (d : Fin numDisco) : Sim :=
  { s with memoriaSecundaria := update s.memoriaSecundaria d (s.memoriaFisica f) }

def maxTiempo (tiempoRAM : Fin numMarcos → Int) : Int :=
  runningMax tiempoRAM (List.finRange numMarcos) (tiempoRAM 0)

def indiceMin (tiempoRAM : Fin numMarcos → Int) : Fin numMarcos :=
  firstMin tiempoRAM (List.finRange numMarcos) 0

def sellarDesalojo (tiempoRAM : Fin numMarcos → Int) (f : Fin numMarcos) : Fin numMarcos → Int :=
  fun i => cInt (update tiempoRAM f (cInt (maxTiempo tiempoRAM + 1)) i + 1)

inductive Resultado where
  | continua (s : Sim)
  | llena (s : Sim)

def accesoFIFO (previo : Sim) (a : Acceso) : Resultado :=
  let s := previo.crearProceso a
  match s.buscarRAM a, s.buscarDISCO a, s.lugarEnRAM with
  | some _, _, _ => .continua s
  | none, none, some _ =>
      .continua { s.asignarMarco a s.indiceRAM (s.marcoDe a) with indiceRAM := advance s.indiceRAM }
  | none, none, none =>
      if (s.memoriaSecundaria s.indiceDISCO).pid ≠ -1 then .llena s
      else .continua
        { (s.bajarADisco s.indiceRAM s.indiceDISCO).asignarMarco a s.indiceRAM (s.marcoDe a) with
          indiceDISCO := advance s.indiceDISCO
          indiceRAM := advance s.indiceRAM }
  | none, some d, none =>
      .continua
        { (s.bajarADisco s.indiceRAM d).asignarMarco a s.indiceRAM (s.memoriaSecundaria d) with
          indiceRAM := advance s.indiceRAM }
  | none, some _, some _ => .continua s

def accesoLRU (previo : Sim) (a : Acceso) : Resultado :=
  let s := previo.crearProceso a
  match s.buscarRAM a, s.buscarDISCO a, s.lugarEnRAM with
  | some i, _, _ =>
      .continua { s with
        tiempoRAM := update s.tiempoRAM i (cInt (maxTiempo s.tiempoRAM + 1)) }
  | none, none, some libre =>
      .continua { s.asignarMarco a libre (s.marcoDe a) with
        tiempoRAM := update s.tiempoRAM libre s.tiempo
        tiempo := cInt (s.tiempo + 1) }
  | none, none, none =>
      if (s.memoriaSecundaria s.indiceDISCO).pid ≠ -1 then .llena s
      else
        let f := indiceMin s.tiempoRAM
        .continua { (s.bajarADisco f s.indiceDISCO).asignarMarco a f (s.marcoDe a) with
          indiceDISCO := advance s.indiceDISCO
          tiempoRAM := sellarDesalojo s.tiempoRAM f }
  | none, some d, none =>
      let f := indiceMin s.tiempoRAM
      .continua { (s.bajarADisco f d).asignarMarco a f (s.memoriaSecundaria d) with
        tiempoRAM := sellarDesalojo s.tiempoRAM f }
  | none, some _, some _ => .continua s

inductive Modo where
  | fifo
  | lru
deriving DecidableEq

def acceso : Modo → Sim → Acceso → Resultado
  | .fifo => accesoFIFO
  | .lru => accesoLRU

/-- One turn of the access loop: no next state once "Memoria secundaria llena" breaks it. -/
def turno (modo : Modo) (s : Sim) (a : Acceso) : Option Sim :=
  match acceso modo s a with
  | .continua s' => some s'
  | .llena _ => none

def correr (modo : Modo) (sinIniciar : Fin maxProcesos → Fin numPaginas → Int)
    (accesos : List Acceso) : Option Sim :=
  Runs.run (turno modo) (inicial sinIniciar) accesos

/-- The access loop as the program runs it: the final tables, and the position of
the access that found the disk full and broke out of the loop. -/
def ciclo (modo : Modo) : Sim → Nat → List Acceso → Sim × Option Nat
  | s, _, [] => (s, none)
  | s, leidos, a :: resto =>
      match acceso modo s a with
      | .continua s' => ciclo modo s' (leidos + 1) resto
      | .llena s' => (s', some leidos)

def parada (modo : Modo) (sinIniciar : Fin maxProcesos → Fin numPaginas → Int)
    (accesos : List Acceso) : Option Nat :=
  (ciclo modo (inicial sinIniciar) 0 accesos).2

def entradaEjemplo : List Acceso :=
  [⟨1, 3, by decide, by decide⟩, ⟨1, 9, by decide, by decide⟩, ⟨1, 3, by decide, by decide⟩,
    ⟨2, 1, by decide, by decide⟩]

def recorrido (cuantas : Nat) : List Acceso :=
  ((List.finRange 32).take cuantas).map fun i =>
    ⟨(i.val / 16 : Nat) + 1, (i.val % 16 : Nat) + 1, by simp only [maxProcesos]; omega,
      by simp only [numPaginas, tamanioMemoriaVirtual, tamanioPagina]; omega⟩

example : (correr .lru (fun _ _ => 0) entradaEjemplo).map (fun s => List.ofFn s.memoriaFisica) =
    some [⟨1, 3⟩, ⟨1, 9⟩, ⟨2, 1⟩, vacia, vacia, vacia, vacia, vacia] := by decide

end OsLabs.Paging
