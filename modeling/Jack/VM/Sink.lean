import Jack.Fault
import Jack.VM.Instruction

/-!
# Where VM code goes

A sink takes instructions one by one. A `Listing` keeps them as they are and never fails. A
`Buffer` keeps the bytes of their text. It may have a limited size, and then takes exactly the
bytes that fit before it refuses the next one.
-/

namespace Jack

/-- A destination of VM code. A write that fails may have taken part of the instruction. -/
class Sink (σ : Type) where
  /-- Take one instruction. -/
  write : Instruction → EStateM Fault σ Unit
  /-- Whether all that was taken has arrived. -/
  flush : σ → Except Fault Unit

/-! ## Listings -/

/-- A sink that remembers the instructions, the latest first. -/
structure Listing where
  latest : List Instruction := []
deriving DecidableEq, Repr

/-- The instructions in the order in which they were written. -/
def Listing.code (l : Listing) : List Instruction :=
  l.latest.reverse

instance : Sink Listing where
  write i l := .ok () ⟨i :: l.latest⟩
  flush _ := .ok ()

/-! ## Buffers -/

/-- A sink that keeps bytes. -/
structure Buffer where
  bytes : ByteArray := .empty
  /-- How many bytes fit, if not any number of them. -/
  capacity : Option Nat := none
  /-- Whether flushing fails. -/
  stuck : Bool := false

namespace Buffer

/-- Appends a text, as far as it fits. -/
def append (text : String) : EStateM Fault Buffer Unit := fun b =>
  let piece := text.toUTF8
  match b.capacity with
  | none => .ok () { b with bytes := b.bytes ++ piece }
  | some room =>
    if b.bytes.size + piece.size ≤ room then .ok () { b with bytes := b.bytes ++ piece }
    else .error .full { b with bytes := b.bytes ++ piece.extract 0 (room - b.bytes.size) }

instance : Sink Buffer where
  write i := append i.line
  flush b := if b.stuck then .error .flush else .ok ()

end Buffer

end Jack
