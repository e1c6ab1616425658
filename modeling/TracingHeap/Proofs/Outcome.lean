import TracingHeap.Error

namespace TracingHeap

theorem except_bind_ok {ε α β : Type} {x : Except ε α} {f : α → Except ε β} {b : β}
    (h : x >>= f = .ok b) : ∃ a, x = .ok a ∧ f a = .ok b := by
  cases x with
  | error e => cases h
  | ok a => exact ⟨a, rfl, h⟩

theorem except_bind_error {ε α β : Type} {x : Except ε α} {f : α → Except ε β} {e : ε}
    (h : x >>= f = .error e) : x = .error e ∨ ∃ a, x = .ok a ∧ f a = .error e := by
  cases x with
  | error d => cases h; exact .inl rfl
  | ok a => exact .inr ⟨a, rfl, h⟩

theorem except_of_toOption_any {ε α : Type} {x : Except ε α} {p : α → Bool}
    (h : x.toOption.any p = true) : ∃ a, x = .ok a ∧ p a = true := by
  cases x with
  | error e => cases h
  | ok a => exact ⟨a, rfl, h⟩

@[simp] theorem mapError_ok {ε δ α : Type} (f : ε → δ) (a : α) :
    (Except.ok a).mapError f = .ok a := rfl

@[simp] theorem mapError_error {ε δ α : Type} (f : ε → δ) (e : ε) :
    (Except.error e : Except ε α).mapError f = .error (f e) := rfl

theorem except_map_ok {ε α β : Type} {x : Except ε α} {f : α → β} {b : β}
    (h : x.map f = .ok b) : ∃ a, x = .ok a ∧ f a = b := by
  cases x with
  | error e => cases h
  | ok a => exact ⟨a, rfl, Except.ok.inj h⟩

theorem except_mapError_ok {ε δ α : Type} {x : Except ε α} {f : ε → δ} {a : α}
    (h : x.mapError f = .ok a) : x = .ok a := by
  cases x with
  | error e => cases h
  | ok b => cases h; rfl

theorem except_mapError_fault {α : Type} {x : Except HeapError α} {f : Fault}
    (h : x.mapError Failure.error = .error (.fault f)) : False := by
  cases x with
  | error e => cases h
  | ok a => cases h

theorem except_mapError_error {α : Type} {x : Except Fault α} {f : Fault}
    (h : x.mapError Failure.fault = .error (.fault f)) : x = .error f := by
  cases x with
  | error e => cases h; rfl
  | ok a => cases h

namespace Fault

/-- A fault that tells of a reference, a cluster or an object in disorder. The other faults tell
of a number that does not fit or of a bound that was met. -/
def Broken : Fault → Prop
  | fatal _ | memberUnreachable _ => True
  | _ => False

/-- A fault of a trace that has met a reference to an object that is not there. -/
def Corrupt (f : Fault) : Prop :=
  ∃ target referencing token, f = .fatal (.corruptReference target referencing token)

theorem Corrupt.broken {f : Fault} (h : f.Corrupt) : f.Broken := by
  obtain ⟨_, _, _, he⟩ := h
  rw [he]
  trivial

theorem not_corrupt_capacity : ¬ Corrupt .capacity := by
  intro h
  obtain ⟨_, _, _, h⟩ := h
  cases h

def Mishap (f : Fault) : Prop := ¬ f.Broken

theorem Broken.not_mishap {f : Fault} (h : f.Broken) : ¬ f.Mishap := fun hm => hm h

def IsOverflow (f : Fault) : Prop := ∃ op, f = .overflow op

theorem IsOverflow.not_broken {f : Fault} (h : f.IsOverflow) : ¬ f.Broken := by
  obtain ⟨op, rfl⟩ := h
  exact id

theorem IsOverflow.not_corrupt {f : Fault} (h : f.IsOverflow) : ¬ f.Corrupt :=
  fun hc => h.not_broken hc.broken

end Fault

theorem addSizes_ok {a b n : Nat} (h : addSizes a b = .ok n) : n = a + b := by
  unfold addSizes at h
  split at h
  · cases h; rfl
  · cases h

theorem mulSizes_ok {a b n : Nat} (h : mulSizes a b = .ok n) : n = a * b := by
  unfold mulSizes at h
  split at h
  · cases h; rfl
  · cases h

theorem addSizes_error {a b : Nat} {f : Fault} (h : addSizes a b = .error f) : f.IsOverflow := by
  unfold addSizes at h
  split at h
  · cases h
  · cases h; exact ⟨_, rfl⟩

theorem mulSizes_error {a b : Nat} {f : Fault} (h : mulSizes a b = .error f) : f.IsOverflow := by
  unfold mulSizes at h
  split at h
  · cases h
  · cases h; exact ⟨_, rfl⟩

/-- The call gives a result with `Q`, or a fault that is not a bad one. -/
def Ends {α : Type} (bad : Fault → Prop) (x : Except Fault α) (Q : α → Prop) : Prop :=
  match x with
  | .ok a => Q a
  | .error f => ¬ bad f

/-- The call gives a result with `Q`, or a fault that is not the heap's. -/
abbrev Yields {α : Type} (x : Except Fault α) (Q : α → Prop) : Prop := Ends Fault.Broken x Q

namespace Ends

variable {α β : Type} {bad bad' : Fault → Prop} {x : Except Fault α} {Q R : α → Prop}

theorem ok (h : Ends bad x Q) {a : α} (hx : x = .ok a) : Q a := by
  subst hx
  exact h

theorem not_bad (h : Ends bad x Q) {f : Fault} (hx : x = .error f) : ¬ bad f := by
  subst hx
  exact h

theorem mono (h : Ends bad x Q) (hq : ∀ a, Q a → R a) : Ends bad x R := by
  cases x with
  | error f => exact h
  | ok a => exact hq a h

theorem and (h : Ends bad x Q) (h' : Ends bad x R) : Ends bad x fun a => Q a ∧ R a := by
  cases x with
  | error f => exact h
  | ok a => exact ⟨h, h'⟩

theorem weaken (h : Ends bad x Q) (hb : ∀ f, bad' f → bad f) : Ends bad' x Q := by
  cases x with
  | error f => exact fun hf => h (hb f hf)
  | ok a => exact h

theorem bind {f : α → Except Fault β} {P : β → Prop} (h : Ends bad x Q)
    (hf : ∀ a, x = .ok a → Q a → Ends bad (f a) P) : Ends bad (x >>= f) P := by
  cases x with
  | error e => exact h
  | ok a => exact hf a rfl h

/-- A call that meets neither a heap in disorder nor a mishap comes back. -/
theorem returns (h : Yields x Q) (h' : Ends Fault.Mishap x R) : ∃ a, x = .ok a ∧ Q a ∧ R a := by
  cases x with
  | error f => exact absurd h h'
  | ok a => exact ⟨a, rfl, h, h'⟩

/-- A choice between two calls, with what is done after either. -/
theorem bind_ite {c : Prop} [Decidable c] {y : Except Fault α} {f : α → Except Fault β}
    {P : β → Prop} (h : Ends bad (if c then x else y) Q) (hf : ∀ a, Q a → Ends bad (f a) P) :
    Ends bad (if c then x >>= f else y >>= f) P := by
  split at h
  · rename_i hc
    rw [if_pos hc]
    exact h.bind fun a _ ha => hf a ha
  · rename_i hc
    rw [if_neg hc]
    exact h.bind fun a _ ha => hf a ha

/-- A fold yields what each of its steps keeps; the invariant is told the items that are left. -/
theorem foldlM {f : β → α → Except Fault β} (I : List α → β → Prop)
    (step : ∀ a rest b, I (a :: rest) b → Ends bad (f b a) (I rest)) {l : List α} {b : β}
    (h : I l b) : Ends bad (l.foldlM f b) (I []) := by
  induction l generalizing b with
  | nil => exact h
  | cons a rest ih =>
    rw [List.foldlM_cons]
    exact (step a rest b h).bind fun b' _ hb => ih hb

/-- A fold yields what the step for each of its items keeps. -/
theorem foldlM_mem {f : β → α → Except Fault β} {I : β → Prop} {l : List α}
    (step : ∀ a ∈ l, ∀ b, I b → Ends bad (f b a) I) {b : β} (h : I b) :
    Ends bad (l.foldlM f b) I := by
  induction l generalizing b with
  | nil => exact h
  | cons a rest ih =>
    rw [List.foldlM_cons]
    exact (step a (List.mem_cons_self ..) b h).bind fun b' _ hb =>
      ih (fun x hx => step x (List.mem_cons_of_mem _ hx)) hb

/-- What the step for an item achieves, and no step undoes, a fold achieves for every item. -/
theorem foldlM_each {f : β → α → Except Fault β} {I : List α → β → Prop} {P : α → β → Prop}
    {l : List α} (step : ∀ a ∈ l, ∀ rest b, I (a :: rest) b →
      Ends bad (f b a) fun b' => I rest b' ∧ P a b' ∧ ∀ x, P x b → P x b') {b : β} (h : I l b) :
    Ends bad (l.foldlM f b) fun b' => I [] b' ∧ ∀ a ∈ l, P a b' := by
  have hfold : Ends bad (l.foldlM f b) _ := foldlM
    (fun left b => (∀ a ∈ left, a ∈ l) ∧ I left b ∧ ∀ a ∈ l, a ∈ left ∨ P a b)
    (fun a rest b hI => by
      obtain ⟨hleft, hI, hdone⟩ := hI
      refine (step a (hleft a (List.mem_cons_self ..)) rest b hI).mono fun b' hb => ?_
      refine ⟨fun x hx => hleft x (List.mem_cons_of_mem _ hx), hb.1, fun x hx => ?_⟩
      rcases hdone x hx with hx | hx
      · rcases List.mem_cons.mp hx with he | hx
        · exact .inr (he ▸ hb.2.1)
        · exact .inl hx
      · exact .inr (hb.2.2 x hx))
    ⟨fun _ hx => hx, h, fun _ hx => .inl hx⟩
  exact hfold.mono fun b' hb =>
    ⟨hb.2.1, fun a ha => (hb.2.2 a ha).resolve_left List.not_mem_nil⟩

end Ends

end TracingHeap
