import Backprop.Ledger
import Backprop.Decimal.Notation

/-!
# Keys of dictionaries

A key is a scalar. Keys are looked up by value, so a truth value, the number it
stands for and the float that equals it are one key. Texts are ordered among
each other and numbers among each other; other keys cannot be compared.
-/

namespace Backprop

inductive Key where
  | null
  | bool (b : Bool)
  | int (i : Int)
  | float (x : Float)
  | text (s : String)
  deriving Inhabited

/-- What a key is looked up by. -/
inductive Key.Identity where
  | null
  | whole (i : Int)
  | fractional (bits : Nat)
  | text (s : String)
  deriving DecidableEq, Repr

namespace Key

instance : Coe String Key := ⟨text⟩

def bit (b : Bool) : Int := if b then 1 else 0

def identity : Key → Identity
  | null => .null
  | bool b => .whole (bit b)
  | int i => .whole i
  | float x =>
    match (Decimal.Parts.ofFloat x).whole? with
    | some i => .whole i
    | none => .fractional x.toBits.toNat
  | text s => .text s

instance : BEq Key := ⟨fun a b => a.identity == b.identity⟩

theorem beq_def (a b : Key) : (a == b) = (a.identity == b.identity) := rfl

instance : EquivBEq Key where
  rfl := by simp [beq_def]
  symm h := by simp only [beq_def, beq_iff_eq] at h ⊢; exact h.symm
  trans h h' := by simp only [beq_def, beq_iff_eq] at h h' ⊢; exact h.trans h'

@[simp] theorem beq_text (a b : String) : (text a == text b) = (a == b) := by
  rw [Bool.eq_iff_iff]
  simp [beq_def, identity]

def text? : Key → Option String
  | text s => some s
  | _ => none

def isText (k : Key) : Bool := k.text?.isSome

/-- A number as a quotient; an infinity has no denominator. -/
def quotient? : Key → Option (Int × Nat)
  | bool b => some (bit b, 1)
  | int i => some (i, 1)
  | float x => some (Decimal.Parts.ofFloat x).quotient
  | _ => none

def isNumber (k : Key) : Bool := k.quotient?.isSome

def quotientLe (a b : Int × Nat) : Bool := if a.2 = 0 ∧ b.2 = 0 then a.1 ≤ b.1 else a.1 * b.2 ≤ b.1 * a.2

/-- The order of texts, and that of numbers. -/
def le : Key → Key → Bool
  | text a, text b => !(b < a : Bool)
  | a, b =>
    match a.quotient?, b.quotient? with
    | some p, some q => quotientLe p q
    | _, _ => false

/-- Whether keys can all be compared with each other. -/
def comparable (keys : List Key) : Bool := keys.length ≤ 1 || keys.all isText || keys.all isNumber

end Key

end Backprop
