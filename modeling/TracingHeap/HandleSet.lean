import Std.Data.TreeSet
import TracingHeap.Handle

namespace TracingHeap

structure HandleSet where
  numbers : Std.TreeSet Nat compare

namespace HandleSet

def ofList (l : List Handle) : HandleSet := ⟨.ofList (l.map (·.index)) compare⟩

def contains (s : HandleSet) (h : Handle) : Bool := s.numbers.contains h.index

def insert (s : HandleSet) (h : Handle) : HandleSet := ⟨s.numbers.insert h.index⟩

/-- The entries of a list that are not in the set, each where it comes first. -/
def missing (s : HandleSet) : List Handle → List Handle
  | [] => []
  | h :: rest => if s.contains h then s.missing rest else h :: (s.insert h).missing rest

theorem contains_ofList (l : List Handle) (h : Handle) : (ofList l).contains h = l.contains h := by
  rw [Bool.eq_iff_iff]
  simp only [ofList, contains, Std.TreeSet.contains_ofList, List.contains_iff_mem, List.mem_map]
  constructor
  · rintro ⟨a, ha, e⟩
    exact Handle.ext_index e ▸ ha
  · intro hm
    exact ⟨h, hm, rfl⟩

theorem contains_insert (s : HandleSet) (a b : Handle) :
    (s.insert a).contains b = (a == b || s.contains b) := by
  have e : (compare a.index b.index == .eq) = (a == b) := by
    rw [Bool.eq_iff_iff]
    simp only [beq_iff_eq, Nat.compare_eq_eq]
    exact ⟨Handle.ext_index, congrArg Handle.index⟩
  simp only [insert, contains, Std.TreeSet.contains_insert, e]

end HandleSet

def distinct (l : List Handle) : List Handle := (HandleSet.ofList []).missing l

/-- Appends to a list the handles that it does not hold yet, each once. -/
def appendNew (list found : List Handle) : List Handle :=
  list ++ (distinct found).filter (!list.contains ·)

end TracingHeap
