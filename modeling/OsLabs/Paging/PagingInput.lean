import Mathlib.Data.BitVec
import Mathlib.Data.List.DropRight
import Mathlib.Data.List.TakeWhile
import OsLabs.Paging.PagingCapacity

/-!
How the simulator reads its accesses: `scanf("%d\n%d", &pid, &pagina)` on the bytes of standard
input, and the loop that ends only when it returns `EOF`.
-/

namespace OsLabs.Paging

abbrev Byte := BitVec 8

def esBlanco (b : Byte) : Bool := b = 32 || 9 ≤ b && b ≤ 13

def esCifra (b : Byte) : Bool := 48 ≤ b && b ≤ 57

def menos : Byte := 45

def mas : Byte := 43

def valorCifras (cifras : List Byte) : Int := cifras.foldl (fun n b => 10 * n + (b.toNat - 48)) 0

inductive Conversion where
  | finDeEntrada
  | fallo
  | entero (valor : Int)
deriving DecidableEq

/-- The directive `%d`: the longest start of a number is read, and a sign without digits is a
matching failure that has read the sign. -/
def convertir (entrada : List Byte) : Conversion × List Byte :=
  let texto := entrada.dropWhile esBlanco
  if texto = [] then (.finDeEntrada, [])
  else
    let numero := if texto.head? = some menos ∨ texto.head? = some mas then texto.tail else texto
    let cifras := numero.takeWhile esCifra
    let valor := if texto.head? = some menos then -valorCifras cifras else valorCifras cifras
    (if cifras = [] then .fallo else .entero valor, numero.dropWhile esCifra)

def eof : Int := -1

/-- What `scanf` returns and assigns, and what it leaves of the input. -/
structure Lectura where
  devuelto : Int
  pid : Option Int
  pagina : Option Int
  resto : List Byte
deriving DecidableEq

def scanf (entrada : List Byte) : Lectura :=
  match convertir entrada with
  | (.finDeEntrada, resto) => ⟨eof, none, none, resto⟩
  | (.fallo, resto) => ⟨0, none, none, resto⟩
  | (.entero pid, resto) =>
      match convertir (resto.dropWhile esBlanco) with
      | (.entero pagina, resto) => ⟨2, some pid, some pagina, resto⟩
      | (_, resto) => ⟨1, some pid, none, resto⟩

/-- The access that the body makes with its variables, when they are set and within the tables. -/
def formar : Option Int → Option Int → Option Acceso
  | some pid, some pagina =>
      if rangos : (1 ≤ pid ∧ pid ≤ maxProcesos) ∧ 1 ≤ pagina ∧ pagina ≤ numPaginas then
        some ⟨pid, pagina, rangos.1, rangos.2⟩
      else none
  | _, _ => none

/-- How the read loop stands: ended by `EOF` or by the full disk, undefined, or still running. -/
inductive Cierre where
  | fin
  | llena
  | indefinido
  | sigue
deriving DecidableEq

structure Corrida where
  simulados : List Acceso
  tablas : Sim
  cierre : Cierre

/-- The read loop, for at most `turnos` turns: what it simulates and how it stands then. -/
def leer (modo : Modo) : Nat → Option Int → Option Int → Sim → List Byte → Corrida
  | 0, _, _, s, _ => ⟨[], s, .sigue⟩
  | turnos + 1, pid, pagina, s, entrada =>
      let l := scanf entrada
      if l.devuelto = eof then ⟨[], s, .fin⟩
      else
        let pid := l.pid.or pid
        let pagina := l.pagina.or pagina
        match formar pid pagina with
        | none => ⟨[], s, .indefinido⟩
        | some a =>
            match acceso modo s a with
            | .continua s' =>
                let c := leer modo turnos pid pagina s' l.resto
                { c with simulados := a :: c.simulados }
            | .llena s' => ⟨[a], s', .llena⟩

inductive Numeral : List Byte → Int → Prop where
  | simple {cifras : List Byte} : cifras ≠ [] → (∀ b ∈ cifras, esCifra b) →
      Numeral cifras (valorCifras cifras)
  | positivo {cifras : List Byte} : cifras ≠ [] → (∀ b ∈ cifras, esCifra b) →
      Numeral (mas :: cifras) (valorCifras cifras)
  | negativo {cifras : List Byte} : cifras ≠ [] → (∀ b ∈ cifras, esCifra b) →
      Numeral (menos :: cifras) (-valorCifras cifras)

/-- The texts that write these integers, with white space between them and nothing else. -/
inductive Escribe : List Byte → List Int → Prop where
  | fin {blancos : List Byte} : (∀ b ∈ blancos, esBlanco b) → Escribe blancos []
  | entero {blancos texto resto : List Byte} {valor : Int} {valores : List Int} :
      (∀ b ∈ blancos, esBlanco b) → Numeral texto valor → (∀ b ∈ resto.head?, esBlanco b) →
      Escribe resto valores → Escribe (blancos ++ (texto ++ resto)) (valor :: valores)

theorem esCifra_iff (b : Byte) : esCifra b = true ↔ 48 ≤ b.toNat ∧ b.toNat ≤ 57 := by
  simp [esCifra, BitVec.le_def]

theorem esBlanco_iff (b : Byte) : esBlanco b = true ↔ b.toNat = 32 ∨ 9 ≤ b.toNat ∧ b.toNat ≤ 13 := by
  simp [esBlanco, BitVec.le_def, ← BitVec.toNat_inj]

theorem not_esCifra_of_esBlanco {b : Byte} (blanco : esBlanco b = true) : ¬esCifra b = true := by
  rw [esBlanco_iff] at blanco
  rw [esCifra_iff]
  omega

theorem not_esBlanco_of_esCifra {b : Byte} (cifra : esCifra b = true) : ¬esBlanco b = true := fun blanco =>
  not_esCifra_of_esBlanco blanco cifra

section Convertir

variable {blancos texto resto cifras : List Byte} {valor : Int}

theorem convertir_fin (blanco : ∀ b ∈ blancos, esBlanco b) : convertir blancos = (.finDeEntrada, []) := by
  have vacio : blancos.dropWhile esBlanco = [] := List.dropWhile_eq_nil_iff.mpr blanco
  simp only [convertir, vacio, if_true]

theorem convertir_blancos (blanco : ∀ b ∈ blancos, esBlanco b) (texto : List Byte) :
    convertir (blancos ++ texto) = convertir texto := by
  rw [convertir, convertir, List.dropWhile_append_of_pos blanco]

theorem cifras_seguidas (cifra : ∀ b ∈ cifras, esCifra b) (separado : ∀ b ∈ resto.head?, esBlanco b) :
    (cifras ++ resto).takeWhile esCifra = cifras ∧ (cifras ++ resto).dropWhile esCifra = resto := by
  rw [List.takeWhile_append_of_pos cifra, List.dropWhile_append_of_pos cifra]
  cases resto with
  | nil => simp
  | cons b resto =>
      have distinto := not_esCifra_of_esBlanco (separado b rfl)
      simp [distinto]

theorem convertir_visible {b : Byte} (visible : ¬esBlanco b = true) (texto : List Byte) :
    convertir (b :: texto) =
      let numero := if b = menos ∨ b = mas then texto else b :: texto
      let cifras := numero.takeWhile esCifra
      (if cifras = [] then .fallo
        else .entero (if b = menos then -valorCifras cifras else valorCifras cifras),
        numero.dropWhile esCifra) := by
  have entero : (b :: texto).dropWhile esBlanco = b :: texto := by simp [visible]
  simp only [convertir, entero, List.head?_cons, Option.some.injEq, List.tail_cons, reduceCtorEq, if_false]

theorem convertir_numeral (numeral : Numeral texto valor) (separado : ∀ b ∈ resto.head?, esBlanco b) :
    convertir (texto ++ resto) = (.entero valor, resto) := by
  cases numeral with
  | simple alguna cifra =>
      obtain ⟨leidas, quedan⟩ := cifras_seguidas cifra separado
      obtain ⟨b, otras, rfl⟩ := List.exists_cons_of_ne_nil alguna
      have primera := cifra b (by simp)
      have sinMenos : b ≠ menos := by
        rintro rfl
        exact absurd primera (by decide)
      have sinMas : b ≠ mas := by
        rintro rfl
        exact absurd primera (by decide)
      rw [List.cons_append] at leidas quedan ⊢
      simp only [convertir_visible (not_esBlanco_of_esCifra primera), sinMenos, sinMas, or_self, if_false,
        leidas, quedan, reduceCtorEq]
  | positivo alguna cifra =>
      obtain ⟨leidas, quedan⟩ := cifras_seguidas cifra separado
      have visible : ¬esBlanco mas = true := by decide
      have sinMenos : mas ≠ menos := by decide
      simp only [List.cons_append, convertir_visible visible, sinMenos, or_true, if_true, if_false, leidas, quedan,
        alguna]
  | negativo alguna cifra =>
      obtain ⟨leidas, quedan⟩ := cifras_seguidas cifra separado
      have visible : ¬esBlanco menos = true := by decide
      simp only [List.cons_append, convertir_visible visible, true_or, if_true, leidas, quedan, alguna, if_false]

end Convertir

def enteros (accesos : List Acceso) : List Int := accesos.flatMap fun a => [a.pid, a.pagina]

theorem scanf_fin {entrada : List Byte} (texto : Escribe entrada []) : (scanf entrada).devuelto = eof := by
  cases texto with
  | fin blanco => rw [scanf, convertir_fin blanco]

theorem scanf_par {entrada : List Byte} {pid pagina : Int} {valores : List Int}
    (texto : Escribe entrada (pid :: pagina :: valores)) :
    ∃ resto, scanf entrada = ⟨2, some pid, some pagina, resto⟩ ∧ Escribe resto valores := by
  cases texto with
  | entero antes primero separado despues =>
      rename_i resto
      cases despues with
      | entero entre segundo aparte quedan =>
          rename_i final
          refine ⟨final, ?_, quedan⟩
          rw [scanf, convertir_blancos antes, convertir_numeral primero separado]
          have salta : ∀ texto, convertir (List.dropWhile esBlanco texto) = convertir texto := by
            intro texto
            rw [convertir, convertir, List.dropWhile_idempotent]
          simp only [salta, convertir_blancos entre, convertir_numeral segundo aparte]

theorem formar_acceso (a : Acceso) : formar (some a.pid) (some a.pagina) = some a := by
  rw [formar, dif_pos ⟨a.pidRango, a.paginaRango⟩]

theorem leer_pares {modo : Modo} {s final : Sim} {entrada : List Byte} {accesos : List Acceso}
    {turnos : Nat} {pid pagina : Option Int} (bastan : accesos.length < turnos)
    (texto : Escribe entrada (enteros accesos)) (corrida : Runs.run (turno modo) s accesos = some final) :
    leer modo turnos pid pagina s entrada = ⟨accesos, final, .fin⟩ := by
  induction accesos generalizing turnos pid pagina s entrada with
  | nil =>
      obtain _ | turnos := turnos
      · simp at bastan
      · obtain rfl := Option.some.inj corrida
        simp only [leer, scanf_fin texto, if_true]
  | cons a accesos ih =>
      obtain _ | turnos := turnos
      · simp at bastan
      · obtain ⟨siguiente, paso, resto⟩ := Option.bind_eq_some_iff.mp corrida
        obtain ⟨quedan, leido, despues⟩ := scanf_par texto
        have distinto : (2 : Int) ≠ eof := by decide
        simp only [leer, leido, distinto, if_false, Option.some_or, formar_acceso, turno_eq_some.mp paso,
          ih (Nat.lt_of_succ_lt_succ bastan) despues resto]

section Exacto

theorem length_convertir (entrada : List Byte) :
    (convertir entrada).2.length ≤ entrada.length ∧
      ∀ valor, (convertir entrada).1 = .entero valor → (convertir entrada).2.length < entrada.length := by
  have salta := (List.dropWhile_sublist esBlanco (l := entrada)).length_le
  rw [convertir]
  generalize entrada.dropWhile esBlanco = texto at salta ⊢
  dsimp only
  split
  · simp
  · generalize numero : (if texto.head? = some menos ∨ texto.head? = some mas then texto.tail else texto) = sinSigno
    have corto : sinSigno.length ≤ texto.length := by
      rw [← numero]
      split <;> simp
    have partes := congrArg List.length (List.takeWhile_append_dropWhile (p := esCifra) (l := sinSigno))
    rw [List.length_append] at partes
    refine ⟨by dsimp only; omega, ?_⟩
    intro valor entero
    have alguna : sinSigno.takeWhile esCifra ≠ [] := by
      intro vacio
      simp [vacio] at entero
    have positivo := List.length_pos_iff.mpr alguna
    dsimp only
    omega

/-- What one `scanf` can do: a pair, the end of the input, or a body with a stale variable. -/
theorem scanf_casos (entrada : List Byte) :
    (∃ pid pagina resto, scanf entrada = ⟨2, some pid, some pagina, resto⟩ ∧ resto.length < entrada.length) ∨
      (scanf entrada).pagina = none := by
  obtain ⟨-, menor⟩ := length_convertir entrada
  rw [scanf]
  split
  · exact Or.inr rfl
  · exact Or.inr rfl
  · rename_i pid resto leido
    have primero := menor pid (by rw [leido])
    have salta := (List.dropWhile_sublist esBlanco (l := resto)).length_le
    obtain ⟨segundo, -⟩ := length_convertir (resto.dropWhile esBlanco)
    rw [leido] at primero
    split
    · rename_i pagina final quedan
      rw [quedan] at segundo
      dsimp only at primero segundo
      exact Or.inl ⟨pid, pagina, final, rfl, by omega⟩
    · exact Or.inr rfl

/-- The complete pairs of integers before the first malformed token or the end of the input, and
whether the end of the input comes right after them. -/
def pares (entrada : List Byte) : List (Int × Int) × Bool :=
  match _ : scanf entrada with
  | ⟨_, some pid, some pagina, resto⟩ => ((pid, pagina) :: (pares resto).1, (pares resto).2)
  | lectura => ([], lectura.devuelto = eof)
termination_by entrada.length
decreasing_by
  all_goals
    rcases scanf_casos entrada with ⟨_, _, _, leido, menor⟩ | ninguna
    · simp_all
    · simp_all

theorem pares_par {entrada resto : List Byte} {pid pagina : Int}
    (leido : scanf entrada = ⟨2, some pid, some pagina, resto⟩) :
    pares entrada = ((pid, pagina) :: (pares resto).1, (pares resto).2) := by
  rw [pares]
  split
  · rename_i igual
    rw [leido] at igual
    cases igual
    rfl
  · rename_i otra
    exact (otra _ _ _ _ leido).elim

theorem pares_fin {entrada : List Byte} (ninguna : (scanf entrada).pagina = none) :
    pares entrada = ([], decide ((scanf entrada).devuelto = eof)) := by
  rw [pares]
  split
  · rename_i igual
    rw [igual] at ninguna
    cases ninguna
  · rfl

def Acceso.par (a : Acceso) : Int × Int := (a.pid, a.pagina)

/-- The loop ends after simulating the complete pairs and nothing else. -/
def Cumple (modo : Modo) (pid pagina : Option Int) (s : Sim) (entrada : List Byte) : Prop :=
  ∃ turnos, ((leer modo turnos pid pagina s entrada).cierre = .fin ∨
      (leer modo turnos pid pagina s entrada).cierre = .llena) ∧
    (leer modo turnos pid pagina s entrada).simulados.map Acceso.par = (pares entrada).1

/-- The pairs name pages of the tables, and the end of the input follows them or the last of them
finds the disk full. -/
def Cabal (modo : Modo) (s : Sim) (entrada : List Byte) : Prop :=
  ∃ accesos : List Acceso, accesos.map Acceso.par = (pares entrada).1 ∧
    ((Runs.run (turno modo) s accesos).isSome ∧ (pares entrada).2 = true ∨
      (Runs.run (turno modo) s accesos.dropLast).isSome ∧ Runs.run (turno modo) s accesos = none)

variable {modo : Modo} {s : Sim} {entrada resto : List Byte} {pid pagina : Int}

theorem cumple_turno {p q : Option Int} : Cumple modo p q s entrada ↔ ∃ turnos,
    ((leer modo (turnos + 1) p q s entrada).cierre = .fin ∨
      (leer modo (turnos + 1) p q s entrada).cierre = .llena) ∧
    (leer modo (turnos + 1) p q s entrada).simulados.map Acceso.par = (pares entrada).1 := by
  constructor
  · rintro ⟨turnos, acaba, simulados⟩
    obtain _ | turnos := turnos
    · simp [leer] at acaba
    · exact ⟨turnos, acaba, simulados⟩
  · rintro ⟨turnos, acaba, simulados⟩
    exact ⟨turnos + 1, acaba, simulados⟩

theorem cumple_fin (p q : Option Int) (ninguna : (scanf entrada).pagina = none) :
    Cumple modo p q s entrada ↔ Cabal modo s entrada := by
  have nada := pares_fin ninguna
  by_cases fin : (scanf entrada).devuelto = eof
  · refine iff_of_true ⟨1, ?_, ?_⟩ ⟨[], by rw [nada]; rfl, Or.inl ⟨rfl, by simp [nada, fin]⟩⟩
    · simp [leer, fin]
    · simp [leer, fin, nada]
  · rw [cumple_turno, nada]
    refine iff_of_false ?_ ?_
    · rintro ⟨turnos, acaba, simulados⟩
      simp only [leer, fin, if_false] at acaba simulados
      split at acaba
      · simp at acaba
      · rename_i formado
        rw [formado] at simulados
        dsimp only at simulados
        split at simulados <;> simp at simulados
    · rintro ⟨accesos, mismos, caso⟩
      rw [nada, List.map_eq_nil_iff] at mismos
      subst mismos
      simp [nada, fin, Runs.run] at caso

theorem formar_eq_some {a : Acceso} : formar (some pid) (some pagina) = some a ↔ a.par = (pid, pagina) := by
  rw [formar]
  constructor
  · intro formado
    split at formado
    · rw [← Option.some.inj formado]
      rfl
    · simp at formado
  · intro mismo
    obtain ⟨rfl, rfl⟩ := Prod.mk.inj mismo
    exact dif_pos ⟨a.pidRango, a.paginaRango⟩

theorem leer_par {p q : Option Int} {a : Acceso} (leido : scanf entrada = ⟨2, some pid, some pagina, resto⟩)
    (formado : formar (some pid) (some pagina) = some a) (turnos : Nat) :
    leer modo (turnos + 1) p q s entrada =
      match acceso modo s a with
      | .continua s' =>
          let c := leer modo turnos (some pid) (some pagina) s' resto
          { c with simulados := a :: c.simulados }
      | .llena s' => ⟨[a], s', .llena⟩ := by
  have distinto : (2 : Int) ≠ eof := by decide
  simp only [leer, leido, distinto, if_false, Option.some_or, formado]

theorem cabal_par {a : Acceso} (leido : scanf entrada = ⟨2, some pid, some pagina, resto⟩)
    (formado : formar (some pid) (some pagina) = some a) :
    Cabal modo s entrada ↔ ∃ accesos : List Acceso, accesos.map Acceso.par = (pares resto).1 ∧
      ((Runs.run (turno modo) s (a :: accesos)).isSome ∧ (pares resto).2 = true ∨
        (Runs.run (turno modo) s (a :: accesos).dropLast).isSome ∧ Runs.run (turno modo) s (a :: accesos) = none) := by
  rw [Cabal, pares_par leido]
  constructor
  · rintro ⟨accesos, mismos, caso⟩
    obtain ⟨b, accesos, rfl, primero, otros⟩ := List.map_eq_cons_iff.mp mismos
    obtain rfl : b = a := Option.some.inj ((formar_eq_some.mpr primero).symm.trans formado)
    exact ⟨accesos, otros, caso⟩
  · rintro ⟨accesos, mismos, caso⟩
    exact ⟨a :: accesos, by rw [List.map_cons, formar_eq_some.mp formado, mismos], caso⟩

theorem cumple_par {p q : Option Int} {a : Acceso} (leido : scanf entrada = ⟨2, some pid, some pagina, resto⟩)
    (formado : formar (some pid) (some pagina) = some a)
    (ih : ∀ s', Cumple modo (some pid) (some pagina) s' resto ↔ Cabal modo s' resto) :
    Cumple modo p q s entrada ↔ Cabal modo s entrada := by
  have mismo : a.par = (pid, pagina) := formar_eq_some.mp formado
  rw [cumple_turno, cabal_par leido formado, pares_par leido]
  simp only [leer_par leido formado]
  cases hecho : acceso modo s a with
  | continua s' =>
      have paso : turno modo s a = some s' := turno_eq_some.mpr hecho
      have quedan : ∀ accesos, Runs.run (turno modo) s (a :: accesos) = Runs.run (turno modo) s' accesos := fun _ => by
        rw [Runs.run, paso, Option.bind_some]
      simp only [List.map_cons, mismo, List.cons.injEq, true_and, quedan]
      refine (ih s').trans (exists_congr fun accesos => and_congr_right fun _ => or_congr_right ?_)
      cases accesos with
      | nil => simp [Runs.run]
      | cons b accesos => rw [List.dropLast_cons_cons, quedan]
  | llena s' =>
      have paso : turno modo s a = none := by rw [turno, hecho]
      have quedan : ∀ accesos, Runs.run (turno modo) s (a :: accesos) = none := fun _ => by
        rw [Runs.run, paso, Option.bind_none]
      simp only [quedan]
      constructor
      · rintro ⟨-, -, simulados⟩
        exact ⟨[], (List.cons.inj simulados).2, Or.inr ⟨rfl, trivial⟩⟩
      · rintro ⟨accesos, mismos, caso⟩
        cases accesos with
        | nil => exact ⟨0, Or.inr trivial, by rw [← mismos, List.map_singleton, mismo]; rfl⟩
        | cons b accesos => simp [quedan] at caso

theorem cumple_iff (p q : Option Int) : Cumple modo p q s entrada ↔ Cabal modo s entrada := by
  induction largo : entrada.length using Nat.strong_induction_on generalizing entrada p q s with
  | h n ih =>
      rcases scanf_casos entrada with ⟨pid, pagina, resto, leido, menor⟩ | ninguna
      · cases formado : formar (some pid) (some pagina) with
        | some a => exact cumple_par leido formado fun s' => ih _ (largo ▸ menor) _ _ rfl
        | none =>
            have distinto : (2 : Int) ≠ eof := by decide
            rw [cumple_turno]
            refine iff_of_false ?_ ?_
            · rintro ⟨turnos, acaba, -⟩
              simp only [leer, leido, distinto, if_false, Option.some_or, formado] at acaba
              simp at acaba
            · rintro ⟨accesos, mismos, -⟩
              rw [pares_par leido] at mismos
              obtain ⟨a, -, -, primero, -⟩ := List.map_eq_cons_iff.mp mismos
              rw [formar_eq_some.mpr primero] at formado
              simp at formado
      · exact cumple_fin p q ninguna

theorem pares_escritos {accesos : List Acceso} (texto : Escribe entrada (enteros accesos)) :
    pares entrada = (accesos.map Acceso.par, true) := by
  induction accesos generalizing entrada with
  | nil =>
      have fin := scanf_fin texto
      rcases scanf_casos entrada with ⟨_, _, _, leido, -⟩ | ninguna
      · simp [leido, eof] at fin
      · rw [pares_fin ninguna]
        simp [fin]
  | cons a accesos ih =>
      obtain ⟨resto, leido, despues⟩ := scanf_par texto
      rw [pares_par leido, ih despues]
      rfl

end Exacto

/-- The loop ends with exactly the complete pairs simulated if and only if these are within the
tables and either the input ends with them and their pages find room, or the last of them is the
first for which there is no room. A text that writes accesses and nothing else has these as its
pairs; they are read and simulated in order. -/
theorem lectura_pares (modo : Modo) (sinIniciar : Fin maxProcesos → Fin numPaginas → Int)
    (entrada : List Byte) :
    (Cumple modo none none (inicial sinIniciar) entrada ↔
      ∃ accesos : List Acceso, accesos.map Acceso.par = (pares entrada).1 ∧
        (distintos accesos ≤ numMarcos + numDisco ∧ (pares entrada).2 = true ∨
          distintos accesos.dropLast ≤ numMarcos + numDisco ∧ numMarcos + numDisco < distintos accesos)) ∧
      ∀ accesos, Escribe entrada (enteros accesos) →
        pares entrada = (accesos.map Acceso.par, true) ∧
        (distintos accesos ≤ numMarcos + numDisco → ∃ s, correr modo sinIniciar accesos = some s ∧
          ∀ turnos > accesos.length,
            leer modo turnos none none (inicial sinIniciar) entrada = ⟨accesos, s, .fin⟩) := by
  have caben : ∀ accesos, (Runs.run (turno modo) (inicial sinIniciar) accesos).isSome ↔
      distintos accesos ≤ numMarcos + numDisco := fun accesos => by
    rw [← correr_some_iff modo sinIniciar accesos, Option.isSome_iff_exists, correr]
  refine ⟨?_, fun accesos texto => ⟨pares_escritos texto, fun room => ?_⟩⟩
  · rw [cumple_iff]
    refine exists_congr fun accesos => and_congr_right fun _ => ?_
    rw [caben, caben, ← Option.not_isSome_iff_eq_none, caben, Nat.not_le]
  · obtain ⟨s, corrida⟩ := (correr_some_iff modo sinIniciar accesos).mpr room
    exact ⟨s, corrida, fun turnos bastan => leer_pares bastan texto corrida⟩

theorem primero_rango : (1 : Int) ≤ 1 ∧ (1 : Int) ≤ maxProcesos := by decide

theorem segundo_rango : (1 : Int) ≤ 2 ∧ (2 : Int) ≤ maxProcesos := by decide

theorem pagina_rango : (1 : Int) ≤ 3 ∧ (3 : Int) ≤ numPaginas := by decide

def accesoPrimero : Acceso := ⟨1, 3, primero_rango, pagina_rango⟩

def accesoRepetido : Acceso := ⟨2, 3, segundo_rango, pagina_rango⟩

theorem lectura_pares_uno :
    ∃ s, correr .lru (fun _ _ => 0) [accesoPrimero] = some s ∧
      leer .lru 2 none none (inicial fun _ _ => 0) [49, 10, 51, 10] = ⟨[accesoPrimero], s, .fin⟩ := by
  have tres : Escribe [10, 51, 10] [3] :=
    @Escribe.entero [10] [51] [10] 3 [] (by decide) (.simple (by decide) (by decide)) (by decide)
      (.fin (by decide))
  have texto : Escribe [49, 10, 51, 10] (enteros [accesoPrimero]) :=
    @Escribe.entero [] [49] [10, 51, 10] 1 [3] (by decide) (.simple (by decide) (by decide)) (by decide) tres
  obtain ⟨s, corrida, leidos⟩ := ((lectura_pares .lru (fun _ _ => 0) _).2 _ texto).2 (by decide)
  exact ⟨s, corrida, leidos 2 (by decide)⟩

theorem leer_malformado {modo : Modo} {entrada : List Byte} (atascada : scanf entrada = ⟨0, none, none, entrada⟩)
    (turnos : Nat) (pid pagina : Option Int) (s : Sim) :
    (leer modo turnos pid pagina s entrada).cierre ≠ .fin := by
  induction turnos generalizing s with
  | zero => simp [leer]
  | succ turnos ih =>
      have distinto : (0 : Int) ≠ eof := by decide
      simp only [leer, atascada, distinto, if_false, Option.none_or]
      split
      · simp
      · split
        · exact ih _
        · simp

/-- A number without its partner is simulated with the page read before, and a letter is read
again and again. -/
theorem lectura_par_incompleto :
    (leer .fifo 3 none none (inicial fun _ _ => 0) [49, 10, 51, 10, 50, 10]).simulados =
        [accesoPrimero, accesoRepetido] ∧
      (leer .fifo 3 none none (inicial fun _ _ => 0) [49, 10, 51, 10, 50, 10]).cierre = .fin ∧
      ∀ turnos, (leer .fifo turnos none none (inicial fun _ _ => 0) [49, 10, 51, 120, 10]).cierre ≠ .fin := by
  refine ⟨by decide, by decide, ?_⟩
  intro turnos
  obtain _ | turnos := turnos
  · decide
  · exact leer_malformado (by decide) turnos (some 1) (some 3) _

end OsLabs.Paging
