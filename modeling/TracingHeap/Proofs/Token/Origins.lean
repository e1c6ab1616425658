import TracingHeap.Proofs.Token.Scopes

namespace TracingHeap

mutual

/-- The path of the field at an address, counted from the first cell of a field called `field`. The elements
of an array go by the name of the array. -/
def Kind.pathAt (field : String) (a : Address) : Kind → Option String
  | .fixed element count =>
    if a.offset < element.width * count then element.pathAt field ⟨a.offset % element.width, a.place⟩
    else none
  | .inline _ fields => fields.pathAt (field ++ ".") a
  | .structs _ fields =>
    match a.place with
    | .element _ offset rest => fields.pathAt (field ++ ".") ⟨offset, rest⟩
    | _ => none
  | _ => some field

def Fields.pathAt (path : String) (a : Address) : Fields → Option String
  | .nil => none
  | .cons name kind rest =>
    if a.offset < kind.width then kind.pathAt (path ++ name) a
    else rest.pathAt path ⟨a.offset - kind.width, a.place⟩

end

namespace Lineage

/-- The class that declares the field at an address, and the path of the field. -/
def fieldAt (a : Address) : Lineage → Option (String × String)
  | [] => none
  | c :: rest =>
    if a.offset < c.fields.width then (c.fields.pathAt "" a).map fun path => (c.name, path)
    else fieldAt ⟨a.offset - c.fields.width, a.place⟩ rest

end Lineage

/-- The address is in the cells of a field that begins at `pos`, and the path leads to it. -/
structure Kind.Leads (k : Kind) (field : String) (pos : Nat) (path : String) (a : Address) : Prop where
  from_pos : pos ≤ a.offset
  within_width : a.offset < pos + k.width
  path_eq : k.pathAt field ⟨a.offset - pos, a.place⟩ = some path

structure Fields.Leads (fs : Fields) (before : String) (pos : Nat) (path : String) (a : Address) :
    Prop where
  from_pos : pos ≤ a.offset
  within_width : a.offset < pos + fs.width
  path_eq : fs.pathAt before ⟨a.offset - pos, a.place⟩ = some path

section

variable {k : Kind} {fs : Fields} {field name path before : String} {pos count e : Nat} {a : Address}

/-- What leads into an element leads into the array. -/
theorem Kind.Leads.element (h : k.Leads field (pos + e * k.width) path a) (he : e < count) :
    (Kind.fixed k count).Leads field pos path a := by
  obtain ⟨hfrom, hwithin, hpath⟩ := h
  obtain ⟨r, hr⟩ : ∃ r, a.offset = pos + e * k.width + r := ⟨a.offset - (pos + e * k.width), by omega⟩
  have hlt : r < k.width := by omega
  have hall : (e + 1) * k.width ≤ k.width * count := by
    rw [Nat.mul_comm k.width]
    exact Nat.mul_le_mul_right _ he
  rw [Nat.succ_mul] at hall
  have hoffset : a.offset - pos = e * k.width + r := by omega
  have hrest : a.offset - (pos + e * k.width) = r := by omega
  rw [hrest] at hpath
  refine ⟨by omega, ?_, ?_⟩
  · rw [Kind.width]
    omega
  · have hlast : e * k.width + r < k.width * count := by omega
    rw [Kind.pathAt, hoffset, if_pos hlast, Nat.mul_add_mod_self_right, Nat.mod_eq_of_lt hlt]
    exact hpath

/-- What leads into a row of a struct array leads into the array. -/
theorem Fields.Leads.row (h : fs.Leads (field ++ ".") 0 path a) (i : Nat) :
    (Kind.structs name fs).Leads field pos path (a.within pos i) := by
  refine ⟨Nat.le_refl pos, Nat.lt_succ_self pos, ?_⟩
  simpa [Kind.pathAt, Address.within] using h.path_eq

theorem Kind.Leads.first (h : k.Leads (before ++ name) pos path a) (rest : Fields) :
    (Fields.cons name k rest).Leads before pos path a := by
  obtain ⟨hfrom, hwithin, hpath⟩ := h
  refine ⟨hfrom, ?_, ?_⟩
  · rw [Fields.width]
    omega
  · rw [Fields.pathAt, if_pos (show a.offset - pos < k.width by omega)]
    exact hpath

theorem Fields.Leads.later (h : fs.Leads before (pos + k.width) path a) (name : String) :
    (Fields.cons name k fs).Leads before pos path a := by
  obtain ⟨hfrom, hwithin, hpath⟩ := h
  refine ⟨by omega, ?_, ?_⟩
  · rw [Fields.width]
    omega
  · rw [Fields.pathAt, if_neg (show ¬ a.offset - pos < k.width by omega), Nat.sub_sub]
    exact hpath

end

namespace Walk

variable {P Q : Visit → Prop} {u v w : Walk}

def Tells (P : Visit → Prop) (w next : Walk) : Prop := ∀ v ∈ w.visits, P v ∨ v ∈ next.visits

theorem Tells.refl (w : Walk) : w.Tells P w := fun _ hv => .inr hv

theorem Tells.trans (hu : u.Tells P v) (hv : v.Tells P w) : u.Tells P w := fun x hx =>
  (hu x hx).elim .inl (hv x)

theorem Tells.imp (h : u.Tells P v) (himp : ∀ x, P x → Q x) : u.Tells Q v := fun x hx =>
  (h x hx).imp_left (himp x)

/-- A walk that does not go on reports only what is as said. -/
theorem Tells.done (h : u.Tells P .done) {x : Visit} (hx : x ∈ u.visits) : P x :=
  (h x hx).resolve_right List.not_mem_nil

theorem mem_andThen {x : Visit} (hx : x ∈ (u.andThen v).visits) : x ∈ u.visits ∨ x ∈ v.visits := by
  unfold andThen at hx
  split at hx
  · exact .inl hx
  · exact List.mem_append.mp hx

theorem tells_andThen (h : ∀ x ∈ u.visits, P x) (next : Walk) : (u.andThen next).Tells P next :=
  fun x hx => (mem_andThen hx).imp_left (h x)

theorem tells_of_visits_nil (h : u.visits = []) (next : Walk) : u.Tells P next := by
  intro x hx
  rw [h] at hx
  cases hx

theorem mem_each {f : Nat → Walk} {x : Visit} (i count : Nat) (hx : x ∈ (each f i count).visits) :
    ∃ e, e < i + count ∧ x ∈ (f e).visits := by
  induction count generalizing i with
  | zero => cases hx
  | succ n ih =>
    rw [each] at hx
    split at hx
    · rename_i hf
      exact ⟨i, by omega, by rwa [hf]⟩
    · rename_i hf
      rcases mem_andThen hx with hx | hx
      · exact ⟨i, by omega, by rwa [hf]⟩
      · obtain ⟨e, he, hx⟩ := ih (i + 1) hx
        exact ⟨e, by omega, hx⟩

end Walk

namespace TokenStream

/-- The token of a visit is one of a field of the class, and `leads` takes the path that it is named after to
the address of the visit. -/
def NamesField (ts : TokenStream) (className : String) (leads : String → Address → Prop) (v : Visit) :
    Prop :=
  ∃ e, ts.entries[v.token]? = some e ∧ e.token.isObject = false ∧ e.origin.className = className ∧
    leads e.origin.field v.address

variable {ts : TokenStream} {className : String} {leads more : String → Address → Prop} {v : Visit}

theorem NamesField.imp (h : ts.NamesField className leads v)
    (himp : ∀ path, leads path v.address → more path v.address) : ts.NamesField className more v := by
  obtain ⟨e, he, hobject, hclass, hleads⟩ := h
  exact ⟨e, he, hobject, hclass, himp _ hleads⟩

theorem HasAt.entry {start : Nat} {e : Entry} {es : List Entry} (h : ts.HasAt start (e :: es)) :
    ts.entries[start]? = some e := h 0 e rfl

end TokenStream

open TokenStream

variable {ts : TokenStream} {o : Object}

def Token.cell? : Token → Option Nat
  | reference offset _ | references offset _ | container offset _ => some offset
  | _ => none

theorem Token.isObject_of_cell? {token : Token} {offset : Nat} (h : token.cell? = some offset) :
    token.isObject = false := by
  cases token <;> first | rfl | cases h

section

variable {start stop base offset count : Nat} {cells : Array Cell} {origin : Origin}
  {inner : List Entry} {ret : Entry} {P : Visit → Prop}

/-- A token that reads one cell reports places in that cell. -/
theorem tells_cell {e : Entry} {es : List Entry} (hts : ts.HasAt start (e :: es))
    (hcell : e.token.cell? = some offset) :
    (ts.walkRange o cells base start stop).Tells
      (fun v => v.token = start ∧ v.address.offset = base + offset)
      (ts.walkRange o cells base (start + 1) stop) := by
  obtain ⟨token, origin⟩ := e
  rw [walkRange]
  split
  · rw [hts.head]
    cases token with
    | reference _ s =>
      cases hcell
      dsimp only
      split
      · apply Walk.tells_andThen
        intro v hv
        obtain rfl := List.mem_singleton.mp hv
        exact ⟨rfl, rfl⟩
      · exact Walk.tells_of_visits_nil rfl _
      · exact Walk.tells_of_visits_nil rfl _
    | references _ s =>
      cases hcell
      dsimp only
      split
      · apply Walk.tells_andThen
        intro v hv
        obtain ⟨i, -, rfl⟩ := List.mem_map.mp hv
        exact ⟨rfl, rfl⟩
      · exact Walk.tells_of_visits_nil rfl _
      · exact Walk.tells_of_visits_nil rfl _
    | container _ collector =>
      cases hcell
      dsimp only
      split
      · apply Walk.tells_andThen
        intro v hv
        obtain ⟨p, -, rfl⟩ := List.mem_map.mp hv
        exact ⟨rfl, rfl⟩
      · exact Walk.tells_of_visits_nil rfl _
    | _ => cases hcell
  · exact Walk.tells_of_visits_nil rfl _

/-- A field with one cell, which its one token reads. -/
theorem Kind.tells_leaf {k : Kind} {className field : String} {token : Token}
    (hts : ts.HasAt start [⟨token, ⟨className, field, offset⟩⟩]) (hcell : token.cell? = some offset)
    (hwidth : k.width = 1) (hpath : ∀ a, k.pathAt field a = some field) :
    (ts.walkRange o cells base start stop).Tells
      (ts.NamesField className (k.Leads field (base + offset)))
      (ts.walkRange o cells base (start + 1) stop) := by
  refine (tells_cell hts hcell).imp fun v hv => ?_
  obtain ⟨htoken, haddress⟩ := hv
  refine ⟨_, htoken ▸ hts.entry, Token.isObject_of_cell? hcell, rfl, ?_⟩
  exact ⟨by omega, by omega, hpath _⟩

/-- What is said of the visits in every element is said of those in the array. -/
theorem tells_fixed {stride : Nat}
    (hts : ts.HasAt start (⟨.fixed offset stride count (start + inner.length + 2), origin⟩ ::
      inner ++ [ret]))
    (hbody : ∀ e < count, ∀ v ∈ (ts.walkRange o cells (base + offset + e * stride) (start + 1)
      (start + 1 + inner.length)).visits, P v) :
    (ts.walkRange o cells base start stop).Tells P
      (ts.walkRange o cells base (start + inner.length + 2) stop) := by
  have hlast : start + inner.length + 2 - 1 = start + 1 + inner.length := by omega
  rw [walkRange]
  split
  · simp only [hts.head, hlast]
    split
    · apply Walk.tells_andThen
      intro v hv
      obtain ⟨e, he, hv⟩ := Walk.mem_each 0 count hv
      exact hbody e (by omega) v hv
    · exact Walk.tells_of_visits_nil rfl _
  · exact Walk.tells_of_visits_nil rfl _

/-- What is said of the visits in every row, seen from outside, is said of those in the struct array. -/
theorem tells_structs
    (hts : ts.HasAt start (⟨.structs offset (start + inner.length + 2), origin⟩ ::
      inner ++ [ret]))
    (hbody : ∀ row i, ∀ v ∈ (ts.walkRange o row 0 (start + 1) (start + 1 + inner.length)).visits,
      P { v with address := v.address.within (base + offset) i }) :
    (ts.walkRange o cells base start stop).Tells P
      (ts.walkRange o cells base (start + inner.length + 2) stop) := by
  have hlast : start + inner.length + 2 - 1 = start + 1 + inner.length := by omega
  rw [walkRange]
  split
  · simp only [hts.head, hlast]
    split
    · split
      · apply Walk.tells_andThen
        intro v hv
        obtain ⟨e, -, hv⟩ := Walk.mem_each 0 _ hv
        obtain ⟨u, hu, rfl⟩ := List.mem_map.mp hv
        exact hbody _ e u hu
      · exact Walk.tells_of_visits_nil rfl _
    · exact Walk.tells_of_visits_nil rfl _
    · exact Walk.tells_of_visits_nil rfl _
  · exact Walk.tells_of_visits_nil rfl _

/-- What a collector for whole objects reports comes with its token. -/
theorem tells_object {e : Entry} {es : List Entry} {f : ObjectCollector}
    (hts : ts.HasAt start (e :: es)) (he : e.token = .object f) :
    (ts.walkRange o cells base start stop).Tells (fun v => ts.entries[v.token]? = some e)
      (ts.walkRange o cells base (start + 1) stop) := by
  rw [walkRange]
  split
  · simp only [hts.head, he]
    apply Walk.tells_andThen
    intro v hv
    obtain ⟨p, -, rfl⟩ := List.mem_map.mp hv
    exact hts.entry
  · exact Walk.tells_of_visits_nil rfl _

end

mutual

/-- What the tokens of a field report is in that field. -/
theorem Kind.tells_emit (className : String) : (k : Kind) → ∀ (field : String)
    (start offset base stop : Nat) (cells : Array Cell),
    ts.HasAt start (k.emit className field start offset) →
    (ts.walkRange o cells base start stop).Tells
      (ts.NamesField className (k.Leads field (base + offset)))
      (ts.walkRange o cells base (start + (k.emit className field start offset).length) stop)
  | .value, _, _, _, _, _, _, _ => .refl _
  | .reference _, _, _, _, _, _, _, hts => Kind.tells_leaf hts rfl rfl fun _ => rfl
  | .references _, _, _, _, _, _, _, hts => Kind.tells_leaf hts rfl rfl fun _ => rfl
  | .inline _ fields, field, start, offset, base, stop, cells, hts =>
    (fields.tells_emit className _ start offset base stop cells hts).imp fun _ hv =>
      hv.imp fun _ h => ⟨h.from_pos, h.within_width, h.path_eq⟩
  | .container spec, field, start, offset, base, stop, cells, hts => by
    simp only [Kind.emit] at hts ⊢
    cases hholds : spec.holdsReferences with
    | false => exact .refl _
    | true => cases hcollector : spec.collector with
      | none => exact .refl _
      | some collector =>
        simp only [hholds, hcollector] at hts
        exact Kind.tells_leaf hts rfl rfl fun _ => rfl
  | .fixed element count, field, start, offset, base, stop, cells, hts => by
    simp only [Kind.emit] at hts ⊢
    split at hts
    · rename_i hskip
      rw [if_pos hskip]
      exact .refl _
    rename_i hskip
    rw [if_neg hskip]
    split at hts
    · rename_i hone
      subst hone
      refine (element.tells_emit className field start offset base stop cells hts).imp fun v hv => ?_
      refine hv.imp fun path h => Kind.Leads.element (e := 0) ?_ Nat.one_pos
      rwa [Nat.zero_mul, Nat.add_zero]
    · rename_i hone
      rw [if_neg hone, scope_length]
      refine tells_fixed hts fun e he v hv => ?_
      have hbody := element.tells_emit className field (start + 1) 0
        (base + offset + e * element.width)
        (start + 1 + (element.emit className field (start + 1) 0).length) cells hts.tail.left
      rw [walkRange_self] at hbody
      exact (hbody.done hv).imp fun path h => h.element he
  | .structs name fields, field, start, offset, base, stop, cells, hts => by
    simp only [Kind.emit] at hts ⊢
    split at hts
    · rename_i hholds
      rw [if_pos hholds, scope_length]
      refine tells_structs hts fun row i v hv => ?_
      have hbody := fields.tells_emit className (field ++ ".") (start + 1) 0 0
        (start + 1 + (fields.emit className (field ++ ".") (start + 1) 0).length) row hts.tail.left
      rw [walkRange_self] at hbody
      obtain ⟨e, he, hobject, hclass, hleads⟩ := hbody.done hv
      exact ⟨e, he, hobject, hclass, hleads.row i⟩
    · rename_i hholds
      rw [if_neg hholds]
      exact .refl _

theorem Fields.tells_emit (className : String) : (fs : Fields) → ∀ (path : String)
    (start offset base stop : Nat) (cells : Array Cell),
    ts.HasAt start (fs.emit className path start offset) →
    (ts.walkRange o cells base start stop).Tells
      (ts.NamesField className (fs.Leads path (base + offset)))
      (ts.walkRange o cells base (start + (fs.emit className path start offset).length) stop)
  | .nil, _, _, _, _, _, _, _ => .refl _
  | .cons name kind rest, path, start, offset, base, stop, cells, hts => by
    simp only [Fields.emit, List.length_append] at hts ⊢
    have hown := kind.tells_emit className (path ++ name) start offset base stop cells hts.left
    have hrest := rest.tells_emit className path _ (offset + kind.width) base stop cells hts.right
    rw [← Nat.add_assoc base] at hrest
    have h := (hown.imp fun v hv => hv.imp fun _ h => h.first rest).trans
      (hrest.imp fun v hv => hv.imp fun _ h => h.later name)
    rwa [Nat.add_assoc start] at h

end

namespace Lineage

/-- The token of a visit is one of a field, and its origin names the class that declares the field at the
address and the path of that field. Addresses count from `pos`. -/
def NamesField (line : Lineage) (pos : Nat) (ts : TokenStream) (v : Visit) : Prop :=
  ∃ e, ts.entries[v.token]? = some e ∧ e.token.isObject = false ∧ pos ≤ v.address.offset ∧
    line.fieldAt ⟨v.address.offset - pos, v.address.place⟩ = some (e.origin.className, e.origin.field)

/-- The token of a visit is the collector of the nearest class that declares one, and its origin names that
class. -/
def NamesCollector (line : Lineage) (ts : TokenStream) (v : Visit) : Prop :=
  ∃ d f, line.declarer = some d ∧ d.collector = some f ∧
    ts.entries[v.token]? = some ⟨.object f, ⟨d.name, "AddReferencedObjects", 0⟩⟩

variable {c d : ClassSpec} {rest line : Lineage} {pos : Nat} {v : Visit} {f : ObjectCollector}

theorem namesField_first (h : ts.NamesField c.name (c.fields.Leads "" pos) v) (rest : Lineage) :
    NamesField (c :: rest) pos ts v := by
  obtain ⟨e, he, hobject, hclass, hfrom, hwithin, hpath⟩ := h
  refine ⟨e, he, hobject, hfrom, ?_⟩
  rw [fieldAt, if_pos (show v.address.offset - pos < c.fields.width by omega), hpath, hclass]
  rfl

theorem NamesField.later (h : rest.NamesField (pos + c.fields.width) ts v) :
    NamesField (c :: rest) pos ts v := by
  obtain ⟨e, he, hobject, hfrom, hfield⟩ := h
  refine ⟨e, he, hobject, by omega, ?_⟩
  rw [fieldAt, if_neg (show ¬ v.address.offset - pos < c.fields.width by omega), Nat.sub_sub]
  exact hfield

theorem NamesCollector.later (h : rest.NamesCollector ts v) (c : ClassSpec) :
    NamesCollector (c :: rest) ts v := by
  obtain ⟨d, f, hd, hf, he⟩ := h
  exact ⟨d, f, by rw [declarer, hd]; rfl, hf, he⟩

theorem collector_of_declarer (h : line.declarer = some d) : ∃ f, d.collector = some f := by
  induction line with
  | nil => cases h
  | cons c rest ih =>
    rw [declarer] at h
    cases hrest : declarer rest with
    | some q => exact ih (hrest.trans (by simpa [hrest] using h))
    | none =>
      rw [hrest, Option.none_or] at h
      split at h
      · rename_i hc
        cases h
        exact Option.isSome_iff_exists.mp hc
      · cases h

/-- What the collector of a lineage reports is named after the nearest class that declares one. -/
theorem namesCollector_collectorEntry (hc : c.collector = some f)
    (he : ts.entries[v.token]? = some (collectorEntry c f rest)) : NamesCollector (c :: rest) ts v := by
  unfold collectorEntry at he
  cases hd : declarer rest with
  | some d =>
    obtain ⟨g, hg⟩ := collector_of_declarer hd
    rw [hd] at he
    simp only [hg, Option.getD_some] at he
    exact ⟨d, g, by rw [declarer, hd]; rfl, hg, he⟩
  | none =>
    rw [hd] at he
    exact ⟨c, f, by simp [declarer, hd, hc], hc, he⟩

theorem tells_fieldEntries (line : Lineage) (stop : Nat) : ∀ start pos,
    ts.HasAt start (line.fieldEntries start pos) →
    (ts.walkRange o o.cells 0 start stop).Tells (line.NamesField pos ts)
      (ts.walkRange o o.cells 0 (start + (line.fieldEntries start pos).length) stop) := by
  induction line with
  | nil => exact fun _ _ _ => .refl _
  | cons c rest ih =>
    intro start pos hts
    simp only [fieldEntries, List.length_append] at hts ⊢
    have hown := c.fields.tells_emit (o := o) c.name "" start pos 0 stop o.cells hts.left
    rw [Nat.zero_add] at hown
    have h := (hown.imp fun v hv => namesField_first hv rest).trans
      ((ih _ _ hts.right).imp fun v hv => hv.later)
    rwa [Nat.add_assoc start] at h

theorem tells_entries (line : Lineage) (stop : Nat) : ∀ start pos,
    ts.HasAt start (line.entries start pos) →
    (ts.walkRange o o.cells 0 start stop).Tells
      (fun v => line.NamesCollector ts v ∨ line.NamesField pos ts v)
      (ts.walkRange o o.cells 0 (start + (line.entries start pos).length) stop) := by
  induction line with
  | nil => exact fun _ _ _ => .refl _
  | cons c rest ih =>
    intro start pos hts
    simp only [entries, List.length_append] at hts ⊢
    have hown := c.fields.tells_emit (o := o) c.name "" start pos 0 stop o.cells hts.left
    rw [Nat.zero_add] at hown
    refine (hown.imp fun v hv => .inr (namesField_first hv rest)).trans ?_
    have hts := hts.right
    rw [← Nat.add_assoc]
    cases hc : c.collector with
    | none =>
      rw [hc] at hts
      exact (ih _ _ hts).imp fun v hv => hv.imp (·.later c) (·.later)
    | some f =>
      rw [hc] at hts
      obtain ⟨g, hg⟩ := token_collectorEntry c f rest
      refine ((tells_object hts hg).imp fun v hv => ?_).trans ?_
      · exact .inl (namesCollector_collectorEntry hc hv)
      · have h := (tells_fieldEntries (o := o) rest stop _ _ hts.tail).imp fun v hv =>
          Or.inr (a := NamesCollector (c :: rest) ts v) hv.later
        rwa [Nat.add_assoc _ 1, Nat.add_comm 1] at h

end Lineage

namespace Schema

variable {s : Schema} {id : ClassId} {e : ClassEntry} {ts : TokenStream} {o : Object} {v : Visit}

/-- Whatever a walk with the stream of a class reports is named after its class and its field. -/
theorem Layered.named (hs : s.Layered) (he : s.get? id = some e) (hts : e.stream = .ok ts)
    (hv : v ∈ (ts.walk o).visits) :
    (s.lineage id).NamesCollector ts v ∨ (s.lineage id).NamesField 0 ts v := by
  have hentries := hs.entries_eq id e he ts hts
  have hat : ts.HasAt 0 ts.entries.toList := by
    intro j d hj
    rw [Nat.zero_add]
    simpa using hj
  rw [hentries] at hat
  have h := (s.lineage id).tells_entries (o := o) ts.size 0 0 hat.left
  have hend : ts.walkRange o o.cells 0 (0 + ((s.lineage id).entries 0 0).length) ts.size = .done := by
    rw [walkRange, hat.right.head]
    simp
  rw [hend] at h
  exact h.done hv

/-- The stream of a class in a schema is there unless the elements of struct arrays have no size. It is well
nested. Built up class by class as two lists, with the tokens of the superclasses moved to the front and their
collector replaced, it is the same as token for token and origin for origin. And whatever a walk over an object
reports comes with the index of a token whose origin names the class that declares the field at the address
and the path of that field, or, if the token is a collector for whole objects, the nearest class that declares
one. -/
theorem Registered.stream_nested_and_named (hs : s.Registered) (he : s.get? id = some e) :
    ((s.lineage id).ElementsFit → ∃ ts, e.stream = .ok ts) ∧
    (¬ (s.lineage id).ElementsFit → ∃ f, e.stream = .error f ∧ f.IsOverflow) ∧
    ∀ ts, e.stream = .ok ts → ts.WellNested ∧
      (∃ b, (s.lineage id).build.2 = some b ∧ b.tokens = ts.tokens ∧ b.origins = ts.origins ∧
        b.origins.length = b.tokens.length) ∧
      ∀ o, ∀ v ∈ (ts.walk o).visits, ∃ t origin, ts.token? v.token = some t ∧
        ts.origin? v.token = some origin ∧
        match t with
        | .object f => ∃ d, (s.lineage id).declarer = some d ∧ d.collector = some f ∧
            origin = ⟨d.name, "AddReferencedObjects", 0⟩
        | _ => (s.lineage id).fieldAt v.address = some (origin.className, origin.field) := by
  have hl := hs.layered
  have hiff := hl.stream_ok_iff id e he
  refine ⟨hiff.mpr, fun hsizes => ?_, fun ts hts => ⟨hl.wellNested he hts, ?_, fun o v hv => ?_⟩⟩
  · cases hstream : e.stream with
    | ok ts => exact absurd (hiff.mp ⟨ts, hstream⟩) hsizes
    | error f => exact ⟨f, rfl, hl.stream_error id e he f hstream⟩
  · refine ⟨.of e.spec.name ts.entries.toList, ?_, rfl, rfl, ?_⟩
    · rw [hl.build_eq id e he ts hts]
    · simp [StreamBuilder.of]
  · rcases hl.named he hts hv with ⟨d, f, hd, hf, hentry⟩ | ⟨d, hentry, hobject, -, hfield⟩
    · refine ⟨.object f, ⟨d.name, "AddReferencedObjects", 0⟩, ?_, ?_, d, hd, hf, rfl⟩
      · simp [token?, hentry]
      · simp [origin?, hentry]
    · refine ⟨d.token, d.origin, ?_, ?_, ?_⟩
      · simp [token?, hentry]
      · simp [origin?, hentry]
      split
      · rename_i f ht
        rw [ht] at hobject
        cases hobject
      · exact hfield

open Sample in
/-- The collector that the subclass declares is found under its name, and the second row of its struct array under
the path of a field of the rows. -/
theorem stream_nested_and_named_cabinet : ∃ (s : Schema) (e : ClassEntry) (ts : TokenStream),
    s.Registered ∧ s.get? ⟨1⟩ = some e ∧ e.stream = .ok ts ∧ ts.WellNested ∧
      (∃ b, (s.lineage ⟨1⟩).build.2 = some b ∧ b.tokens = ts.tokens ∧ b.origins = ts.origins ∧
        b.origins.length = b.tokens.length) ∧
      (∀ v ∈ (ts.walk filled).visits, ∃ t origin, ts.token? v.token = some t ∧
        ts.origin? v.token = some origin ∧
        match t with
        | .object f => ∃ d, Lineage.declarer [shelf, cabinet] = some d ∧ d.collector = some f ∧
            origin = ⟨d.name, "AddReferencedObjects", 0⟩
        | _ => Lineage.fieldAt v.address [shelf, cabinet] = some (origin.className, origin.field)) ∧
      Lineage.declarer [shelf, cabinet] = some cabinet ∧
      Lineage.fieldAt ⟨4, .here⟩ [shelf, cabinet] = some ("Shelf", "pairs.b") ∧
      Lineage.fieldAt ⟨5, .element 1 1 .here⟩ [shelf, cabinet] = some ("Cabinet", "rows.next") := by
  obtain ⟨s, e, hs, he, -, hline⟩ := Registered.pair shelf cabinet rfl rfl (by decide +kernel)
  obtain ⟨hmade, -, hstream⟩ := hs.stream_nested_and_named he
  obtain ⟨ts, hts⟩ := hmade (by rw [hline]; exact elementsFit_cabinet)
  obtain ⟨hnested, hbuilt, hnamed⟩ := hstream ts hts
  rw [hline] at hnamed
  exact ⟨s, e, ts, hs, he, hts, hnested, hbuilt, hnamed filled, rfl, by decide, by decide⟩

end Schema

end TracingHeap
