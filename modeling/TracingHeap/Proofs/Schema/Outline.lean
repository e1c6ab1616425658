import TracingHeap.Proofs.Token.Reading
import TracingHeap.Token.Emission

namespace TracingHeap

inductive Part where
  /-- The fields of one class, whose cells start at `base`. -/
  | fields (base : Nat) (fs : Fields)
  | collector (f : ObjectCollector)

namespace Part

def slots (o : Object) : Part → List (Address × Strength)
  | fields base fs => fs.slots o.cells base
  | collector f => f o

def Fits (cells : Array Cell) : Part → Prop
  | fields base fs => fs.FitAt cells base
  | collector _ => True

/-- Puts a collector in the place of an inherited one, or else at the end. -/
def withCollector (f : ObjectCollector) : List Part → List Part
  | [] => [collector f]
  | collector _ :: rest => collector f :: rest
  | fields base fs :: rest => fields base fs :: withCollector f rest

/-- The parts of a class: those it takes over, its own fields, and its own collector. -/
def extend (inherited : List Part) (base : Nat) (fs : Fields) (own : Option ObjectCollector) :
    List Part :=
  match own with
  | some f => withCollector f (inherited ++ [fields base fs])
  | none => inherited ++ [fields base fs]

theorem mem_withCollector {f : ObjectCollector} {ps : List Part} {p : Part}
    (h : p ∈ withCollector f ps) : p = collector f ∨ p ∈ ps := by
  induction ps with
  | nil => exact .inl (List.mem_singleton.mp h)
  | cons q rest ih =>
    cases q with
    | collector g =>
      rcases List.mem_cons.mp h with rfl | h
      · exact .inl rfl
      · exact .inr (List.mem_cons_of_mem _ h)
    | fields base fs =>
      rcases List.mem_cons.mp h with rfl | h
      · exact .inr (List.mem_cons_self ..)
      · rcases ih h with rfl | h
        · exact .inl rfl
        · exact .inr (List.mem_cons_of_mem _ h)

theorem mem_extend {inherited : List Part} {base : Nat} {fs : Fields}
    {own : Option ObjectCollector} {p : Part} (h : p ∈ extend inherited base fs own) :
    p ∈ inherited ∨ p = fields base fs ∨ ∃ f, own = some f ∧ p = collector f := by
  unfold extend at h
  split at h
  · rename_i f
    rcases mem_withCollector h with rfl | h
    · exact .inr (.inr ⟨f, rfl, rfl⟩)
    · rcases List.mem_append.mp h with h | h
      · exact .inl h
      · exact .inr (.inl (List.mem_singleton.mp h))
  · rcases List.mem_append.mp h with h | h
    · exact .inl h
    · exact .inr (.inl (List.mem_singleton.mp h))

end Part

mutual

/-- A field has no end token and no collector for whole objects among its tokens. -/
theorem Kind.emit_plain (className : String) : (k : Kind) → ∀ (field : String) (start offset : Nat)
    (e : Entry), e ∈ k.emit className field start offset →
      e.token.isStop = false ∧ e.token.isObject = false
  | .value, _, _, _, e, h => by simp [Kind.emit] at h
  | .reference _, _, _, _, e, h | .references _, _, _, _, e, h => by
    simp only [Kind.emit, List.mem_singleton] at h
    subst h
    exact ⟨rfl, rfl⟩
  | .inline _ fields, field, start, offset, e, h =>
    fields.emit_plain className _ start offset e h
  | .container spec, field, start, offset, e, h => by
    simp only [Kind.emit] at h
    split at h
    · rw [List.mem_singleton] at h
      subst h
      exact ⟨rfl, rfl⟩
    · cases h
  | .fixed element count, field, start, offset, e, h => by
    simp only [Kind.emit] at h
    split at h
    · cases h
    · split at h
      · exact element.emit_plain className field start offset e h
      · simp only [List.cons_append, List.mem_cons, List.mem_append, List.not_mem_nil,
          or_false] at h
        rcases h with rfl | h | rfl
        · exact ⟨rfl, rfl⟩
        · exact element.emit_plain className field _ 0 e h
        · exact ⟨rfl, rfl⟩
  | .structs _ fields, field, start, offset, e, h => by
    simp only [Kind.emit] at h
    split at h
    · simp only [List.cons_append, List.mem_cons, List.mem_append, List.not_mem_nil,
        or_false] at h
      rcases h with rfl | h | rfl
      · exact ⟨rfl, rfl⟩
      · exact fields.emit_plain className _ _ 0 e h
      · exact ⟨rfl, rfl⟩
    · cases h

theorem Fields.emit_plain (className : String) : (fs : Fields) → ∀ (path : String)
    (start offset : Nat) (e : Entry), e ∈ fs.emit className path start offset →
      e.token.isStop = false ∧ e.token.isObject = false
  | .nil, _, _, _, e, h => by simp [Fields.emit] at h
  | .cons name kind rest, path, start, offset, e, h => by
    simp only [Fields.emit, List.mem_append] at h
    rcases h with h | h
    · exact kind.emit_plain className _ start offset e h
    · exact rest.emit_plain className path _ _ e h

end

/-- These tokens, the first at index `start`, are those of these parts. -/
inductive Spells : Nat → List Entry → List Part → Prop where
  | nil (start : Nat) : Spells start [] []
  | fields (className : String) {start base : Nat} {fs : Fields} {es : List Entry}
      {ps : List Part} (rest : Spells (start + (fs.emit className "" start base).length) es ps) :
      Spells start (fs.emit className "" start base ++ es) (.fields base fs :: ps)
  | collector (origin : Origin) {start : Nat} {f : ObjectCollector} {es : List Entry}
      {ps : List Part} (rest : Spells (start + 1) es ps) :
      Spells start (⟨.object f, origin⟩ :: es) (.collector f :: ps)

namespace Spells

variable {start : Nat} {es : List Entry} {ps : List Part}

theorem no_stop (h : Spells start es ps) : ∀ e ∈ es, e.token.isStop = false := by
  induction h with
  | nil => simp
  | fields className rest ih =>
    intro e he
    rcases List.mem_append.mp he with he | he
    · exact (Fields.emit_plain className _ _ _ _ e he).1
    · exact ih e he
  | collector origin rest ih =>
    intro e he
    rcases List.mem_cons.mp he with rfl | he
    · rfl
    · exact ih e he

theorem append_fields (h : Spells start es ps) (className : String) (base : Nat) (fs : Fields) :
    Spells start (es ++ fs.emit className "" (start + es.length) base)
      (ps ++ [.fields base fs]) := by
  induction h with
  | nil start =>
    have h : Spells start (fs.emit className "" start base ++ []) [.fields base fs] :=
      .fields className (.nil _)
    simpa using h
  | fields c rest ih =>
    rw [List.append_assoc, List.length_append, ← Nat.add_assoc]
    exact .fields c ih
  | collector origin rest ih =>
    rw [List.cons_append, List.length_cons, Nat.add_comm _ 1, ← Nat.add_assoc]
    exact .collector origin ih

/-- Looking for a collector passes over the tokens of fields. -/
theorem withCollector_append (className : String) (f : ObjectCollector) {front : List Entry}
    (h : ∀ e ∈ front, e.token.isObject = false) (rest : List Entry) :
    TokenStream.withCollector className f (front ++ rest)
      = front ++ TokenStream.withCollector className f rest := by
  induction front with
  | nil => rfl
  | cons e front ih =>
    rw [List.cons_append, TokenStream.withCollector, h e (List.mem_cons_self ..)]
    simp [ih fun d hd => h d (List.mem_cons_of_mem _ hd)]

theorem withCollector (h : Spells start es ps) (className : String) (f : ObjectCollector) :
    Spells start (TokenStream.withCollector className f es) (Part.withCollector f ps) := by
  induction h with
  | nil => exact .collector _ (.nil _)
  | fields c rest ih =>
    rw [withCollector_append className f fun e he => (Fields.emit_plain c _ _ _ _ e he).2]
    exact .fields c ih
  | collector origin rest ih => exact .collector _ rest

/-- Reading the tokens of an outline reports the slots of its parts. -/
theorem walk {ts : TokenStream} {o : Object} {stop : Nat} (h : Spells start es ps)
    (hts : ts.HasAt start es) (hfit : ∀ p ∈ ps, p.Fits o.cells) (hstop : start + es.length ≤ stop) :
    (ts.walkRange o o.cells 0 start stop).Reads (ps.flatMap (Part.slots o))
      (ts.walkRange o o.cells 0 (start + es.length) stop) := by
  induction h with
  | nil => exact .refl _
  | @fields className start base fs es ps rest ih =>
    rw [List.length_append, ← Nat.add_assoc] at hstop ⊢
    have hown := fs.walk_emit (o := o) className "" start base 0 stop o.cells hts.left
      (by rw [Nat.zero_add]; exact hfit _ (List.mem_cons_self ..)) (by omega)
    rw [Nat.zero_add] at hown
    exact hown.trans (ih hts.right (fun p hp => hfit p (List.mem_cons_of_mem _ hp)) hstop)
  | @collector origin start f es ps rest ih =>
    rw [List.length_cons] at hstop ⊢
    have hrest := ih hts.tail (fun p hp => hfit p (List.mem_cons_of_mem _ hp)) (by omega)
    rw [TokenStream.walkRange]
    simp only [show start < stop by omega, dif_pos, hts.head]
    have hown := Walk.reads_mk ((f o).map fun p => (⟨p.1, p.2, start⟩ : Visit))
      (ts.walkRange o o.cells 0 (start + 1) stop)
    have hfound : ((f o).map fun p => (⟨p.1, p.2, start⟩ : Visit)).map Visit.found = f o := by
      simp [Visit.found, Function.comp_def]
    rw [hfound] at hown
    have h := hown.trans hrest
    rwa [show start + 1 + es.length = start + (es.length + 1) by omega] at h

end Spells

end TracingHeap
