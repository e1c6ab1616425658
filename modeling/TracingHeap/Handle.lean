namespace TracingHeap

/-- The number of an object's slot in the table. Zero is kept for "no object". -/
structure Handle where
  index : Nat
  pos : 0 < index
  lt : index < 4294967296
deriving DecidableEq

namespace Handle

/-- The handle of a number, if the number can name a slot. -/
def ofIndex? (n : Nat) : Option Handle :=
  if h : 0 < n ∧ n < 4294967296 then some ⟨n, h.1, h.2⟩ else none

def le (a b : Handle) : Bool := Nat.ble a.index b.index

/-- How a handle is written in messages. -/
def text (h : Handle) : String := "#" ++ toString h.index

def debugText (h : Handle) : String := "ObjectHandle(" ++ toString h.index ++ ")"

theorem ofIndex?_index (h : Handle) : ofIndex? h.index = some h := by
  simp [ofIndex?, h.pos, h.lt]

theorem ofIndex?_eq_some_iff {n : Nat} {h : Handle} : ofIndex? n = some h ↔ h.index = n := by
  constructor
  · intro e
    unfold ofIndex? at e
    split at e
    · cases e
      rfl
    · cases e
  · intro e
    subst e
    exact ofIndex?_index h

theorem ext_index {a b : Handle} (h : a.index = b.index) : a = b := by
  cases a
  cases b
  cases h
  rfl

end Handle

/-- A place that names an object or nothing. -/
abbrev Slot := Option Handle

namespace Slot

/-- The number held by a slot, zero meaning nothing. -/
def raw : Slot → Nat
  | none => 0
  | some h => h.index

def debugText : Slot → String
  | none => "Ref(null)"
  | some h => "Ref(" ++ h.text ++ ")"

end Slot

end TracingHeap
