import OsLabs.Foundation.RingBuffer
import OsLabs.Ipc.IpcCore

/-!
The line discipline of `xv6/console.c` at two levels. `Console` is the code: `consoleintr` and `consoleread`
on the ring `input`, one call or one turn of a reader at a time, as `cons.lock` orders them. `Session` says
what it is for: a text of committed bytes and a line that is still edited, with no ring and no indices.
-/

namespace OsLabs.Ipc

open Function

variable {P : Type*}

/-- A process in `consoleread`. It waits for `cons.lock` or sleeps on `&input.r`, with `n` bytes still to read
of `target`, or its last call has returned. `dst` are the bytes stored for the caller so far. -/
inductive Reader where
  | idle
  | waiting (n target : Nat) (dst : List Byte)
  | returned (value : Int) (dst : List Byte)
deriving DecidableEq, Repr

namespace Reader

def start (n : Int) : Reader := .waiting n.toNat n.toNat []

def dst : Reader → List Byte
  | .idle => []
  | .waiting _ _ dst | .returned _ dst => dst

end Reader

/-- The loop of `consoleread` under `cons.lock`, until it returns or sleeps. -/
def readLoop (killed : Bool) (target : Nat) : Nat → Input → List Byte → Input × Reader
  | 0, input, dst => (input, .returned target dst)
  | n + 1, input, dst =>
      if input.r = input.w then
        (input, if killed then .returned (-1) dst else .waiting (n + 1) target dst)
      else
        let c := input.buf (inputIndex input.r)
        let input := { input with r := input.r + 1 }
        if c = control 'D' then
          (if n + 1 < target then { input with r := input.r - 1 } else input,
            .returned (target - (n + 1 : Nat)) dst)
        else if c = newline then (input, .returned (target - n) (dst ++ [c]))
        else readLoop killed target n input (dst ++ [c])

/-- `keys` is one call of `consoleintr`, `read` the start of a call of `consoleread` and `turn` its loop, from
the moment at which it gets `cons.lock` or is woken. -/
inductive ConsoleEvent (P : Type*) where
  | keys (typed : List Byte)
  | read (p : P) (n : Int)
  | turn (p : P) (killed : Bool)

/-- `handed` is not in the program: the bytes stored for readers, in the order in which they were. -/
structure Console (P : Type*) where
  input : Input
  reader : P → Reader
  handed : List Byte

namespace Console

def start : Console P := ⟨⟨fun _ => 0, 0, 0, 0⟩, fun _ => .idle, []⟩

variable [DecidableEq P] (s : Console P)

def turn (p : P) (killed : Bool) : Reader → Option (Console P)
  | .waiting n target dst =>
      let (input, reader) := readLoop killed target n s.input dst
      some ⟨input, update s.reader p reader, s.handed ++ reader.dst.drop dst.length⟩
  | _ => none

def step : ConsoleEvent P → Option (Console P)
  | .keys typed => some { s with input := typed.foldl (fun input c => (input.consoleintr c).1) s.input }
  | .read p n =>
      match s.reader p with
      | .waiting _ _ _ => none
      | _ => some { s with reader := update s.reader p (.start n) }
  | .turn p killed => s.turn p killed (s.reader p)

end Console

/-- What has been typed: the committed bytes, of which `taken` have been read, and the rest of the line. -/
structure Text where
  committed : List Byte
  tail : List Byte
  taken : Nat

namespace Text

variable (t : Text)

def unread : List Byte := t.committed.drop t.taken

/-- A character is added to the line if there is room. A newline, `^D` or the last place commits the line. -/
def accept (c : Byte) : Text :=
  if t.unread.length + t.tail.length < inputBuf then
    let tail := t.tail ++ [c]
    if c = newline ∨ c = control 'D' ∨ t.unread.length + tail.length = inputBuf then
      { t with committed := t.committed ++ tail, tail := [] }
    else { t with tail := tail }
  else t

/-- A key: backspace and `^U` remove characters of the line, `^P` is a command and the others are text. -/
def key (c : Byte) : Text :=
  if c = control 'P' then t
  else if c = control 'U' then { t with tail := [] }
  else if c = control 'H' ∨ c = 0x7f then { t with tail := t.tail.dropLast }
  else if c = 0 then t
  else t.accept (if c = BitVec.ofNat 8 '\r'.toNat then newline else c)

end Text

/-- What a read takes from the committed bytes that follow: how many of them, and the reader after that. It
ends with a newline and before a `^D`, which it takes if it has no byte. -/
def reads (killed : Bool) (target : Nat) : Nat → List Byte → List Byte → Nat × Reader
  | 0, _, dst => (0, .returned target dst)
  | n + 1, [], dst => (0, if killed then .returned (-1) dst else .waiting (n + 1) target dst)
  | n + 1, c :: rest, dst =>
      if c = control 'D' then (if dst = [] then 1 else 0, .returned dst.length dst)
      else if c = newline then (1, .returned (dst.length + 1 : Nat) (dst ++ [c]))
      else ((reads killed target n rest (dst ++ [c])).1 + 1, (reads killed target n rest (dst ++ [c])).2)

structure Session (P : Type*) where
  text : Text
  reader : P → Reader

namespace Session

def start : Session P := ⟨⟨[], [], 0⟩, fun _ => .idle⟩

variable [DecidableEq P] (s : Session P)

def turn (p : P) (killed : Bool) : Reader → Option (Session P)
  | .waiting n target dst =>
      let (count, reader) := reads killed target n s.text.unread dst
      some ⟨{ s.text with taken := s.text.taken + count }, update s.reader p reader⟩
  | _ => none

def step : ConsoleEvent P → Option (Session P)
  | .keys typed => some { s with text := typed.foldl Text.key s.text }
  | .read p n =>
      match s.reader p with
      | .waiting _ _ _ => none
      | _ => some { s with reader := update s.reader p (.start n) }
  | .turn p killed => s.turn p killed (s.reader p)

end Session

end OsLabs.Ipc
