import TracingHeap.Proofs.Schema.Classes

namespace TracingHeap

mutual

/-- The elements of every struct array whose tokens are made have a size. -/
def Kind.ElementsFit : Kind → Prop
  | .fixed element count => 0 < count → element.ElementsFit
  | .inline _ fields => fields.ElementsFit
  | .structs _ fields =>
    fields.holdReferences = true → (∃ n, fields.checkedWidth 0 = .ok n) ∧ fields.ElementsFit
  | _ => True

def Fields.ElementsFit : Fields → Prop
  | .nil => True
  | .cons _ kind rest => kind.ElementsFit ∧ rest.ElementsFit

end

theorem addSizes_of_lt {a b : Nat} (h : a + b < sizeLimit) : addSizes a b = .ok (a + b) := if_pos h

theorem addSizes_lt {a b n : Nat} (h : addSizes a b = .ok n) : n < sizeLimit := by
  unfold addSizes at h
  split at h
  · cases h
    assumption
  · cases h

theorem Fields.checkedWidth_lt : (fs : Fields) → ∀ before n, before < sizeLimit →
    fs.checkedWidth before = .ok n → n < sizeLimit
  | .nil, _, _, hlt, h => by
    cases h
    exact hlt
  | .cons _ kind rest, before, n, _, h => by
    simp only [Fields.checkedWidth] at h
    obtain ⟨_, -, h⟩ := except_bind_ok h
    obtain ⟨next, hn, h⟩ := except_bind_ok h
    exact rest.checkedWidth_lt next n (addSizes_lt hn) h

mutual

/-- No tokens are made for the struct arrays of a field without references. -/
theorem Kind.elementsFit_of_bare : (k : Kind) → k.holdsReferences = false → k.ElementsFit
  | .value, _ | .reference _, _ | .references _, _ | .container _, _ => trivial
  | .fixed element count, h => by
    intro hcount
    simp only [Kind.holdsReferences, hcount, decide_true, Bool.true_and] at h
    exact element.elementsFit_of_bare h
  | .inline _ fields, h => fields.elementsFit_of_bare h
  | .structs _ fields, h => fun hholds => by
    rw [show fields.holdReferences = false from h] at hholds
    cases hholds

theorem Fields.elementsFit_of_bare : (fs : Fields) → fs.holdReferences = false → fs.ElementsFit
  | .nil, _ => trivial
  | .cons _ kind rest, h => by
    simp only [Fields.holdReferences, Bool.or_eq_false_iff] at h
    exact ⟨kind.elementsFit_of_bare h.1, rest.elementsFit_of_bare h.2⟩

end

section

variable {className owner : String}

/-- Tokens are made for fields only if their sizes can be added up. -/
theorem Fields.checkedWidth_of_checkEmission : (fs : Fields) → ∀ path offset,
    fs.checkEmission className path offset = .ok () → ∃ n, fs.checkedWidth offset = .ok n
  | .nil, _, offset, _ => ⟨offset, rfl⟩
  | .cons name kind rest, path, offset, h => by
    simp only [Fields.checkEmission] at h
    obtain ⟨_, -, h⟩ := except_bind_ok h
    obtain ⟨w, hw, h⟩ := except_bind_ok h
    obtain ⟨next, hnext, h⟩ := except_bind_ok h
    obtain ⟨n, hn⟩ := rest.checkedWidth_of_checkEmission path next h
    refine ⟨n, ?_⟩
    simp only [Fields.checkedWidth, hw, bind, Except.bind, hnext, hn]

mutual

theorem Kind.elementsFit_of_checkEmission : (k : Kind) → ∀ field offset,
    k.checkEmission className field offset = .ok () → k.ElementsFit
  | .value, _, _, _ | .reference _, _, _, _ | .references _, _, _, _ | .container _, _, _, _ => trivial
  | .fixed element count, field, offset, h => by
    intro hcount
    simp only [Kind.checkEmission] at h
    split at h
    · rename_i hbare
      have hbare : element.holdsReferences = false := by
        simpa [Nat.ne_of_gt hcount] using hbare
      exact element.elementsFit_of_bare hbare
    · split at h
      · exact element.elementsFit_of_checkEmission field offset h
      · obtain ⟨_, -, h⟩ := except_bind_ok h
        exact element.elementsFit_of_checkEmission field 0 h
  | .inline _ fields, field, offset, h => by
    simp only [Kind.checkEmission] at h
    split at h
    · exact fields.elementsFit_of_checkEmission _ offset h
    · rename_i hbare
      exact fields.elementsFit_of_bare (Bool.eq_false_iff.mpr hbare)
  | .structs _ fields, field, offset, h => by
    intro hholds
    simp only [Kind.checkEmission, if_pos hholds] at h
    exact ⟨fields.checkedWidth_of_checkEmission _ 0 h, fields.elementsFit_of_checkEmission _ 0 h⟩

theorem Fields.elementsFit_of_checkEmission : (fs : Fields) → ∀ path offset,
    fs.checkEmission className path offset = .ok () → fs.ElementsFit
  | .nil, _, _, _ => trivial
  | .cons name kind rest, path, offset, h => by
    simp only [Fields.checkEmission] at h
    obtain ⟨⟨⟩, hkind, h⟩ := except_bind_ok h
    obtain ⟨_, -, h⟩ := except_bind_ok h
    obtain ⟨next, -, h⟩ := except_bind_ok h
    exact ⟨kind.elementsFit_of_checkEmission _ offset hkind,
      rest.elementsFit_of_checkEmission path next h⟩

end

mutual

/-- The tokens of a field can be made where its cells have sizes. Those of an array start at zero, so
they have more room than the array itself. -/
theorem Kind.checkEmission_of_elementsFit : (k : Kind) → ∀ checked field offset w,
    k.check owner checked = .ok () → k.checkedWidth = .ok w → offset + w < sizeLimit →
      k.ElementsFit → k.checkEmission className field offset = .ok ()
  | .value, _, _, _, _, _, _, _, _ | .reference _, _, _, _, _, _, _, _, _
  | .references _, _, _, _, _, _, _, _, _ => rfl
  | .container spec, checked, field, offset, _, hok, _, _, _ => by
    simp only [Kind.check] at hok
    split at hok
    · cases hok
    · rename_i hhas
      simp only [Kind.checkEmission, if_neg hhas]
  | .fixed element count, checked, field, offset, w, hok, hw, hlt, hfit => by
    simp only [Kind.checkedWidth] at hw
    obtain ⟨v, hv, hw⟩ := except_bind_ok hw
    have hmul : w = v * count := mulSizes_ok hw
    simp only [Kind.checkEmission]
    split
    · rfl
    · rename_i hsome
      have hcount : 0 < count := by
        simp only [Bool.or_eq_true, decide_eq_true_eq, not_or] at hsome
        omega
      have hle : v ≤ w := hmul ▸ Nat.le_mul_of_pos_right v hcount
      split
      · exact element.checkEmission_of_elementsFit checked field offset v hok hv (by omega)
          (hfit hcount)
      · have hinner := element.checkEmission_of_elementsFit checked field 0 v
          hok hv (by omega) (hfit hcount)
        simp only [hv, bind, Except.bind, hinner]
  | .inline name fields, checked, field, offset, w, hok, hw, hlt, hfit => by
    simp only [Kind.checkEmission]
    split
    · exact fields.checkEmission_of_elementsFit (name ++ ".") (field ++ ".") offset 0 w hok hw
        (by omega) hfit
    · rfl
  | .structs name fields, checked, field, offset, _, hok, _, _, hfit => by
    simp only [Kind.checkEmission]
    split
    · rename_i hholds
      obtain ⟨⟨n, hn⟩, hfit⟩ := hfit hholds
      have hlt : n < sizeLimit := fields.checkedWidth_lt 0 n (by decide) hn
      exact fields.checkEmission_of_elementsFit (name ++ ".") (field ++ ".") 0 0 n hok hn (by omega)
        hfit
    · rfl

theorem Fields.checkEmission_of_elementsFit : (fs : Fields) → ∀ checked path offset before n,
    fs.check owner checked = .ok () → fs.checkedWidth before = .ok n →
      offset + n < sizeLimit + before → fs.ElementsFit →
      fs.checkEmission className path offset = .ok ()
  | .nil, _, _, _, _, _, _, _, _, _ => rfl
  | .cons name kind rest, checked, path, offset, before, n, hok, hn, hlt, hfit => by
    simp only [Fields.check] at hok
    obtain ⟨⟨⟩, hkind, hrest⟩ := except_bind_ok hok
    simp only [Fields.checkedWidth] at hn
    obtain ⟨w, hw, hn⟩ := except_bind_ok hn
    obtain ⟨next, hnext, hn⟩ := except_bind_ok hn
    -- the sum `n` begins with `before`, so these fields reach from `offset` to `offset + n - before`
    have hle : next ≤ n := (rest.checkedWidth_ok next n hn).symm ▸ Nat.le_add_right ..
    have hnext : next = before + w := addSizes_ok hnext
    have hown := kind.checkEmission_of_elementsFit (checked ++ name) (path ++ name) offset w hkind hw
      (by omega) hfit.1
    have hothers := rest.checkEmission_of_elementsFit checked path (offset + w) next n hrest hn
      (by omega) hfit.2
    simp only [Fields.checkEmission, hown, bind, Except.bind, hw,
      addSizes_of_lt (show offset + w < sizeLimit by omega), hothers]

end

end

namespace Schema

variable {s : Schema} {e : ClassEntry}

theorem layOut_fits {spec : ClassSpec} {parent : Option ClassEntry} (h : layOut spec parent = .ok e) :
    ∃ n, spec.fields.checkedWidth 0 = .ok n ∧ e.base + n < sizeLimit := by
  unfold layOut at h
  obtain ⟨n, hn, h⟩ := except_bind_ok h
  obtain ⟨width, hwidth, h⟩ := except_bind_ok h
  have hlt := addSizes_lt hwidth
  have hsum := addSizes_ok hwidth
  cases h
  exact ⟨n, hn, hsum ▸ hlt⟩

/-- Over a superclass with a stream, a class has a stream just when the elements in its own fields have
sizes. -/
theorem Built.assembles {i : Nat} {parent : Option ClassEntry} (hb : s.Built i e)
    (hl : layOut e.spec parent = .ok e) (inherited : Option TokenStream) :
    (∃ ts, TokenStream.assemble e.spec.name e.base e.spec.fields e.spec.collector inherited = .ok ts) ↔
      e.spec.fields.ElementsFit := by
  obtain ⟨n, hn, hlt⟩ := layOut_fits hl
  unfold TokenStream.assemble
  constructor
  · rintro ⟨ts, h⟩
    obtain ⟨⟨⟩, hcheck, -⟩ := except_bind_ok h
    exact e.spec.fields.elementsFit_of_checkEmission "" e.base hcheck
  · intro hfit
    have hcheck : e.spec.fields.checkEmission e.spec.name "" e.base = .ok () :=
      e.spec.fields.checkEmission_of_elementsFit "" "" e.base 0 n hb.checked hn (by omega) hfit
    rw [hcheck]
    exact ⟨_, rfl⟩

end Schema

end TracingHeap
