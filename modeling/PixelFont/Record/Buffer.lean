import PixelFont.OffsetTable

/-!
A buffer that records are written to. Each field is noted with its offset from the start of the
record being written, so a record nested in another has offsets of its own.
-/

set_option autoImplicit false

namespace PixelFont

structure EncodeFault where
  field : String
  cause : IntFormat.Fault
  deriving DecidableEq, Repr

def EncodeFault.message (e : EncodeFault) : String :=
  s!"failed to encode '{e.field}': {e.cause.message}"

/-- Bytes written as zeros, to be filled in once the value of their field is known. -/
structure Hole where
  name : String
  place : Nat
  format : IntFormat
  deriving DecidableEq, Repr

structure Buffer where
  bytes : Array UInt8 := #[]
  start : Nat := 0
  notes : Array Note := #[]
  deriving DecidableEq

/-- Replaces the bytes from `i` on, as far as the array reaches. -/
def overwrite (bytes : Array UInt8) (i : Nat) : List UInt8 → Array UInt8
  | [] => bytes
  | b :: bs => overwrite (bytes.setIfInBounds i b) (i + 1) bs

namespace Buffer

def position (b : Buffer) : Nat := b.bytes.size - b.start

def note (b : Buffer) (name : String) (format : Option IntFormat) : Buffer :=
  { b with notes := b.notes.push ⟨name, b.position, format⟩ }

def append (b : Buffer) (bs : List UInt8) : Buffer := { b with bytes := b.bytes ++ bs }

def field (b : Buffer) (name : String) (f : IntFormat) (v : Int) : Except EncodeFault Buffer :=
  match f.encode v with
  | .ok bs => .ok ((b.note name f).append bs)
  | .error e => .error ⟨name, e⟩

def mark (b : Buffer) (name : String) : Buffer := b.note name none

def hole (b : Buffer) (name : String) (f : IntFormat) : Hole := ⟨name, b.bytes.size, f⟩

def reserve (b : Buffer) (name : String) (f : IntFormat) : Buffer :=
  (b.note name f).append (List.replicate f.bytes 0)

def fill (b : Buffer) (h : Hole) (v : Int) : Except EncodeFault Buffer :=
  match h.format.encode v with
  | .ok bs => .ok { b with bytes := overwrite b.bytes h.place bs }
  | .error e => .error ⟨h.name, e⟩

def enter (b : Buffer) : Buffer := { b with start := b.bytes.size }

def leave (b outer : Buffer) : Buffer := { b with start := outer.start }

/-- Writes a nested record, giving its length. What a failing record wrote stays, and the
enclosing record goes on from its own start. -/
def record (b : Buffer) (body : Buffer → Except EncodeFault Unit × Buffer) :
    Except EncodeFault Nat × Buffer :=
  let (outcome, after) := body b.enter
  (outcome.map fun _ => after.position, after.leave b)

end Buffer
end PixelFont
