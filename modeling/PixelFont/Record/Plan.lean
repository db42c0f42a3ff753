import PixelFont.Record.Buffer

/-!
Plans of records: what to write, in order, as data. A plan sees of the buffer nothing but the
position in its own record and the outcome of the records nested in it, and can fill only the
holes that it reserved itself.
-/

set_option autoImplicit false

namespace PixelFont

/-- A plan that may fill `n` holes, numbered in the order in which they were reserved. -/
inductive Plan : Nat → Type where
  | done {n : Nat} : Plan n
  | fail {n : Nat} (e : EncodeFault) : Plan n
  | field {n : Nat} (name : String) (format : IntFormat) (value : Int) (next : Plan n) : Plan n
  | mark {n : Nat} (name : String) (next : Plan n) : Plan n
  | bytes {n : Nat} (bs : List UInt8) (next : Plan n) : Plan n
  | reserve {n : Nat} (name : String) (format : IntFormat) (next : Plan (n + 1)) : Plan n
  | fill {n : Nat} (hole : Fin n) (value : Int) (next : Plan n) : Plan n
  | position {n : Nat} (next : Nat → Plan n) : Plan n
  | record {n : Nat} (inner : Plan 0) (next : Except EncodeFault Nat → Plan n) : Plan n

namespace Plan

/-- A plan stops at its first fault; what it wrote before stays in the buffer. -/
def run {n : Nat} : Plan n → Vector Hole n → Buffer → Except EncodeFault Unit × Buffer
  | .done, _, b => (.ok (), b)
  | .fail e, _, b => (.error e, b)
  | .field name f v next, holes, b =>
    match b.field name f v with
    | .ok b => next.run holes b
    | .error e => (.error e, b)
  | .mark name next, holes, b => next.run holes (b.mark name)
  | .bytes bs next, holes, b => next.run holes (b.append bs)
  | .reserve name f next, holes, b => next.run (holes.push (b.hole name f)) (b.reserve name f)
  | .fill i v next, holes, b =>
    match b.fill holes[i] v with
    | .ok b => next.run holes b
    | .error e => (.error e, b)
  | .position next, holes, b => (next b.position).run holes b
  | .record inner next, holes, b =>
    let (outcome, b) := b.record (inner.run #v[])
    (next outcome).run holes b

def write (p : Plan 0) (b : Buffer) : Except EncodeFault Nat × Buffer := b.record (p.run #v[])

def thenRecord {n : Nat} (inner : Plan 0) (next : Plan n) : Plan n :=
  .record inner fun
    | .ok _ => next
    | .error e => .fail e

def records (ps : List (Plan 0)) : Plan 0 := ps.foldr thenRecord .done

end Plan
end PixelFont
