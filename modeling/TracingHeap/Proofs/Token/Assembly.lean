import TracingHeap.Proofs.Schema.Lineage

namespace TracingHeap

namespace Token

def skip? : Token → Option Nat
  | fixed _ _ _ skip | structs _ skip => some skip
  | _ => none

def withSkip (skip : Nat) : Token → Token
  | fixed offset stride count _ => fixed offset stride count skip
  | structs offset _ => structs offset skip
  | t => t

def rebase (shift : Nat) : Token → Token
  | fixed offset stride count skip => fixed offset stride count (skip + shift)
  | structs offset skip => structs offset (skip + shift)
  | t => t

end Token

def Entry.rebase (shift : Nat) (e : Entry) : Entry := { e with token := e.token.rebase shift }

@[simp] theorem length_map_rebase (shift : Nat) (es : List Entry) :
    (es.map (Entry.rebase shift)).length = es.length := List.length_map _

mutual

/-- With more tokens in front, the tokens of a field differ in their skips only. -/
theorem Kind.emit_rebase (className : String) (shift : Nat) : (k : Kind) → ∀ (field : String)
    (start offset : Nat), k.emit className field (start + shift) offset
      = (k.emit className field start offset).map (Entry.rebase shift)
  | .value, _, _, _ | .reference _, _, _, _ | .references _, _, _, _ => rfl
  | .inline _ fields, field, start, offset => fields.emit_rebase className shift _ start offset
  | .container spec, field, start, offset => by
    simp only [Kind.emit]
    split <;> rfl
  | .fixed element count, field, start, offset => by
    simp only [Kind.emit]
    split
    · rfl
    split
    · exact element.emit_rebase className shift field start offset
    have hinner := element.emit_rebase className shift field (start + 1) 0
    rw [show start + shift + 1 = start + 1 + shift by omega, hinner]
    simp [Entry.rebase, Token.rebase]
    omega
  | .structs _ fields, field, start, offset => by
    simp only [Kind.emit]
    split
    · have hinner := fields.emit_rebase className shift (field ++ ".") (start + 1) 0
      rw [show start + shift + 1 = start + 1 + shift by omega, hinner]
      simp [Entry.rebase, Token.rebase]
      omega
    · rfl

theorem Fields.emit_rebase (className : String) (shift : Nat) : (fs : Fields) → ∀ (path : String)
    (start offset : Nat), fs.emit className path (start + shift) offset
      = (fs.emit className path start offset).map (Entry.rebase shift)
  | .nil, _, _, _ => rfl
  | .cons name kind rest, path, start, offset => by
    simp only [Fields.emit, List.map_append]
    rw [kind.emit_rebase className shift, length_map_rebase, Nat.add_right_comm,
      rest.emit_rebase className shift]

end

mutual

theorem Kind.emit_eq_nil (className : String) : (k : Kind) → k.holdsReferences = false →
    ∀ (field : String) (start offset : Nat), k.emit className field start offset = []
  | .value, _, _, _, _ => rfl
  | .reference _, h, _, _, _ | .references _, h, _, _, _ => by simp [Kind.holdsReferences] at h
  | .fixed element count, h, field, start, offset => by
    have hskip : (decide (count = 0) || !element.holdsReferences) = true := by
      cases hc : element.holdsReferences <;> simp_all [Kind.holdsReferences]
    rw [Kind.emit, if_pos hskip]
  | .inline _ fields, h, field, start, offset => fields.emit_eq_nil className h _ start offset
  | .structs _ fields, h, field, start, offset => by
    rw [Kind.emit, if_neg (by simpa [Kind.holdsReferences] using h)]
  | .container spec, h, field, start, offset => by
    have hs : spec.holdsReferences = false := h
    simp [Kind.emit, hs]

theorem Fields.emit_eq_nil (className : String) : (fs : Fields) → fs.holdReferences = false →
    ∀ (path : String) (start offset : Nat), fs.emit className path start offset = []
  | .nil, _, _, _, _ => rfl
  | .cons name kind rest, h, path, start, offset => by
    simp only [Fields.holdReferences, Bool.or_eq_false_iff] at h
    simp [Fields.emit, kind.emit_eq_nil className h.1, rest.emit_eq_nil className h.2]

end

/-- A stream in the making: the tokens of a class and, in a list of its own, where they come from. -/
structure StreamBuilder where
  className : String
  tokens : List Token
  origins : List Origin

namespace StreamBuilder

def new (className : String) : StreamBuilder := ⟨className, [], []⟩

def emit (b : StreamBuilder) (token : Token) (field : String) (offset : Nat) : StreamBuilder :=
  ⟨b.className, b.tokens ++ [token], b.origins ++ [⟨b.className, field, offset⟩]⟩

/-- Ends the scope of an array token, which then points behind the return token. -/
def closeScope (b : StreamBuilder) (opener : Nat) (field : String) : StreamBuilder :=
  let closed := b.emit .ret field 0
  { closed with tokens := closed.tokens.modify opener (Token.withSkip closed.tokens.length) }

end StreamBuilder

mutual

def Kind.build (field : String) (offset : Nat) (b : StreamBuilder) : Kind → StreamBuilder
  | .value => b
  | .reference s => b.emit (.reference offset s) field offset
  | .references s => b.emit (.references offset s) field offset
  | .fixed element count =>
    if count = 0 || !element.holdsReferences then b
    else if count = 1 then element.build field offset b
    else
      let opened := b.emit (.fixed offset element.width count 0) field offset
      (element.build field 0 opened).closeScope b.tokens.length field
  | .inline _ fields => fields.build (field ++ ".") offset b
  | .structs _ fields =>
    if fields.holdReferences then
      let opened := b.emit (.structs offset 0) field offset
      (fields.build (field ++ ".") 0 opened).closeScope b.tokens.length field
    else b
  | .container spec =>
    match spec.holdsReferences, spec.collector with
    | true, some collector => b.emit (.container offset collector) field offset
    | _, _ => b

def Fields.build (path : String) (offset : Nat) (b : StreamBuilder) : Fields → StreamBuilder
  | .nil => b
  | .cons name kind rest =>
    let own := if kind.holdsReferences then kind.build (path ++ name) offset b else b
    rest.build path (offset + kind.width) own

end

namespace StreamBuilder

/-- Puts the tokens of the superclass in front, all but its end. -/
def prepend (b parent : StreamBuilder) : StreamBuilder :=
  let front := parent.tokens.filter fun t => !t.isStop
  { b with
    tokens := front ++ b.tokens.map (Token.rebase front.length)
    origins := parent.origins.take front.length ++ b.origins }

/-- Puts a collector in the place of the inherited one, whose origin then names this class. -/
def collect (b : StreamBuilder) (f : ObjectCollector) : StreamBuilder :=
  match b.tokens.findIdx? Token.isObject with
  | some i => { b with
      tokens := b.tokens.set i (.object f)
      origins := b.origins.modify i fun o => { o with className := b.className } }
  | none => b.emit (.object f) "AddReferencedObjects" 0

def close (b : StreamBuilder) (collector : Option ObjectCollector) : StreamBuilder :=
  (match collector with
    | some f => b.collect f
    | none => b).emit .stop "EndOfStream" 0

def assemble (className : String) (base : Nat) (fields : Fields)
    (collector : Option ObjectCollector) (parent : Option StreamBuilder) : StreamBuilder :=
  let own := fields.build "" base (new className)
  match parent with
  | some p => (own.prepend p).close collector
  | none => own.close collector

def of (className : String) (es : List Entry) : StreamBuilder :=
  ⟨className, es.map (·.token), es.map (·.origin)⟩

theorem emit_of (className : String) (es : List Entry) (t : Token) (field : String) (offset : Nat) :
    (of className es).emit t field offset = of className (es ++ [⟨t, ⟨className, field, offset⟩⟩]) := by
  simp [of, emit]

/-- An array token points behind its return token once its scope is closed. -/
theorem closeScope_of (className field : String) (front inner : List Entry) (opener : Entry) :
    (of className (front ++ opener :: inner)).closeScope front.length field
      = of className (front ++
          ({ opener with token := opener.token.withSkip (front.length + inner.length + 2) } :: inner
            ++ [⟨.ret, ⟨className, field, 0⟩⟩])) := by
  have hlength : (front ++ opener :: inner ++
      [(⟨.ret, ⟨className, field, 0⟩⟩ : Entry)]).length = front.length + inner.length + 2 := by
    simp
    omega
  have hmodify := List.modifyTailIdx_add
    (List.modifyHead (Token.withSkip (front.length + inner.length + 2))) 0 (front.map (·.token))
    (opener.token :: (inner.map (·.token) ++ [Token.ret]))
  simp only [closeScope, emit_of]
  simp only [of, List.length_map, hlength, mk.injEq, true_and]
  refine ⟨?_, by simp⟩
  simpa [List.modify] using hmodify

end StreamBuilder

mutual

/-- Emitting the tokens of a field and filling in the skips afterwards makes the tokens with their skips. -/
theorem Kind.build_of (className : String) : (k : Kind) → ∀ (field : String) (offset : Nat)
    (es : List Entry), k.build field offset (.of className es)
      = .of className (es ++ k.emit className field es.length offset)
  | .value, field, offset, es => by simp [Kind.build, Kind.emit]
  | .reference _, field, offset, es | .references _, field, offset, es =>
    StreamBuilder.emit_of className es _ field offset
  | .inline _ fields, field, offset, es => fields.build_of className _ offset es
  | .container spec, field, offset, es => by
    simp only [Kind.build, Kind.emit]
    cases spec.holdsReferences with
    | false => simp
    | true => cases spec.collector with
      | none => simp
      | some collector => exact StreamBuilder.emit_of className es _ field offset
  | .fixed element count, field, offset, es => by
    simp only [Kind.build, Kind.emit]
    split
    · rw [List.append_nil]
    split
    · exact element.build_of className field offset es
    have hinner := element.build_of className field 0 (es ++
      [⟨.fixed offset element.width count 0, ⟨className, field, offset⟩⟩])
    rw [StreamBuilder.emit_of, hinner, List.append_assoc, List.singleton_append, List.length_append,
      List.length_singleton, show (StreamBuilder.of className es).tokens.length = es.length by
        simp [StreamBuilder.of]]
    exact StreamBuilder.closeScope_of className field es _ _
  | .structs _ fields, field, offset, es => by
    simp only [Kind.build, Kind.emit]
    split
    · have hinner := fields.build_of className (field ++ ".") 0 (es ++
        [⟨.structs offset 0, ⟨className, field, offset⟩⟩])
      rw [StreamBuilder.emit_of, hinner, List.append_assoc, List.singleton_append, List.length_append,
        List.length_singleton, show (StreamBuilder.of className es).tokens.length = es.length by
          simp [StreamBuilder.of]]
      exact StreamBuilder.closeScope_of className field es _ _
    · rw [List.append_nil]

theorem Fields.build_of (className : String) : (fs : Fields) → ∀ (path : String) (offset : Nat)
    (es : List Entry), fs.build path offset (.of className es)
      = .of className (es ++ fs.emit className path es.length offset)
  | .nil, path, offset, es => by simp [Fields.build, Fields.emit]
  | .cons name kind rest, path, offset, es => by
    have hown : (if kind.holdsReferences then kind.build (path ++ name) offset (.of className es)
        else .of className es) = StreamBuilder.of className
          (es ++ kind.emit className (path ++ name) es.length offset) := by
      split
      · exact kind.build_of className (path ++ name) offset es
      · rename_i hholds
        rw [kind.emit_eq_nil className (Bool.eq_false_iff.mpr hholds), List.append_nil]
    rw [Fields.build, hown, rest.build_of, Fields.emit, List.append_assoc, List.length_append]

end

namespace StreamBuilder

/-- The superclass's tokens go in front with their origins, as many of the one as of the other. -/
theorem prepend_of (className parentName : String) {front : List Entry} {last : Entry}
    (own : List Entry) (hfront : ∀ e ∈ front, e.token.isStop = false) (hlast : last.token = .stop) :
    (of className own).prepend (of parentName (front ++ [last]))
      = of className (front ++ own.map (Entry.rebase front.length)) := by
  have htokens : (front.map (·.token) ++ [Token.stop]).filter (fun t => !t.isStop)
      = front.map (·.token) := by
    rw [List.filter_append, List.filter_eq_self.mpr (by simpa using hfront)]
    exact List.append_nil _
  have hown : own.map (fun e => (e.rebase front.length).token)
      = (own.map (·.token)).map (Token.rebase front.length) := by
    simp [Entry.rebase, Function.comp_def]
  have hkept : own.map (fun e => (e.rebase front.length).origin) = own.map (·.origin) := rfl
  simp [prepend, of, hlast, htokens, Function.comp_def, hown, hkept]

theorem withCollector_eq (className : String) (f : ObjectCollector) (es : List Entry) :
    TokenStream.withCollector className f es =
      match es.findIdx? (·.token.isObject) with
      | some i => es.modify i fun e => ⟨.object f, { e.origin with className := className }⟩
      | none => es ++ [⟨.object f, ⟨className, "AddReferencedObjects", 0⟩⟩] := by
  induction es with
  | nil => rfl
  | cons e rest ih =>
    rw [TokenStream.withCollector, List.findIdx?_cons]
    split
    · rfl
    · rw [ih]
      cases rest.findIdx? (·.token.isObject) <;> rfl

theorem collect_of (className : String) (f : ObjectCollector) (es : List Entry) :
    (of className es).collect f = of className (TokenStream.withCollector className f es) := by
  rw [withCollector_eq, collect]
  have hfind : (of className es).tokens.findIdx? Token.isObject = es.findIdx? (·.token.isObject) := by
    simp [of, List.findIdx?_map, Function.comp_def]
  rw [hfind]
  cases es.findIdx? (·.token.isObject) with
  | none => exact emit_of className es _ _ _
  | some i =>
    simp only [of, mk.injEq, true_and]
    constructor
    · apply List.ext_getElem?
      intro j
      by_cases h : i = j <;> simp [List.getElem?_set', h, Function.comp_def]
    · apply List.ext_getElem?
      intro j
      by_cases h : i = j <;> simp [h, Function.comp_def]

end StreamBuilder

def completed (className : String) (collector : Option ObjectCollector) (body : List Entry) :
    List Entry :=
  (match collector with
    | some f => TokenStream.withCollector className f body
    | none => body) ++ [⟨.stop, ⟨className, "EndOfStream", 0⟩⟩]

theorem TokenStream.assemble_entries {className : String} {base : Nat} {fields : Fields}
    {collector : Option ObjectCollector} {parent : Option TokenStream} {ts : TokenStream}
    (h : assemble className base fields collector parent = .ok ts) :
    ts.entries.toList = completed className collector
      (inherited parent ++ fields.emit className "" (inherited parent).length base) := by
  unfold assemble at h
  obtain ⟨_, -, h⟩ := except_bind_ok h
  cases h
  rfl

namespace StreamBuilder

variable {className : String} {base : Nat} {fields : Fields} {collector : Option ObjectCollector}

theorem close_of (body : List Entry) :
    (of className body).close collector = of className (completed className collector body) := by
  cases collector with
  | none => exact emit_of ..
  | some f =>
    simp only [close, collect_of, emit_of]
    rfl

/-- The tokens of the own fields are first made as if they were all. -/
theorem build_new : fields.build "" base (new className)
    = of className (fields.emit className "" 0 base) := fields.build_of className "" base []

theorem assemble_root : assemble className base fields collector none
    = of className (completed className collector (fields.emit className "" 0 base)) := by
  simp only [assemble, build_new, close_of]

theorem assemble_child (parentName : String) {front : List Entry} {last : Entry}
    (hfront : ∀ e ∈ front, e.token.isStop = false) (hlast : last.token = .stop) :
    assemble className base fields collector (some (of parentName (front ++ [last])))
      = of className (completed className collector
          (front ++ fields.emit className "" front.length base)) := by
  have hmoved := fields.emit_rebase className front.length "" 0 base
  rw [Nat.zero_add] at hmoved
  simp only [assemble, build_new, prepend_of className parentName _ hfront hlast, close_of, hmoved]

end StreamBuilder

namespace Lineage

def declarer : Lineage → Option ClassSpec
  | [] => none
  | c :: rest => (declarer rest).or (if c.collector.isSome then some c else none)

def fieldEntries (start pos : Nat) : Lineage → List Entry
  | [] => []
  | c :: rest =>
    let own := c.fields.emit c.name "" start pos
    own ++ fieldEntries (start + own.length) (pos + c.fields.width) rest

/-- The entry of the collector that is called where the class `c` has declared the first, of which `rest` are
the subclasses. -/
def collectorEntry (c : ClassSpec) (f : ObjectCollector) (rest : Lineage) : Entry :=
  match rest.declarer with
  | some d => ⟨.object (d.collector.getD f), ⟨d.name, "AddReferencedObjects", 0⟩⟩
  | none => ⟨.object f, ⟨c.name, "AddReferencedObjects", 0⟩⟩

/-- The entries of the classes, the end left out: those of the fields, one class after the other, and, behind
those of the farthest class that declares a collector, the one of the collector. -/
def entries (start pos : Nat) : Lineage → List Entry
  | [] => []
  | c :: rest =>
    let own := c.fields.emit c.name "" start pos
    own ++ match c.collector with
      | none => entries (start + own.length) (pos + c.fields.width) rest
      | some f => collectorEntry c f rest
        :: fieldEntries (start + own.length + 1) (pos + c.fields.width) rest

/-- The stream of the last of the classes as it is put together, and the number of cells of all. -/
def build (line : Lineage) : Nat × Option StreamBuilder :=
  line.foldl (fun sofar c => (sofar.1 + c.fields.width,
    some (.assemble c.name sofar.1 c.fields c.collector sofar.2))) (0, none)

theorem declarer_append (line : Lineage) (c : ClassSpec) :
    declarer (line ++ [c]) = if c.collector.isSome then some c else line.declarer := by
  induction line with
  | nil => simp [declarer]
  | cons d rest ih =>
    rw [List.cons_append, declarer, declarer, ih]
    split <;> rfl

section

variable {c d : ClassSpec} {f g : ObjectCollector} {rest : Lineage}

theorem collectorEntry_append_of_none (hc : c.collector = none) :
    collectorEntry d g (rest ++ [c]) = collectorEntry d g rest := by
  simp [collectorEntry, declarer_append, hc]

theorem collectorEntry_append_of_some (hc : c.collector = some f) :
    collectorEntry d g (rest ++ [c]) = ⟨.object f, ⟨c.name, "AddReferencedObjects", 0⟩⟩ := by
  simp [collectorEntry, declarer_append, hc]

/-- A collector of a subclass takes the place of the one called so far. -/
theorem withCollector_collectorEntry (className : String) (more : List Entry) :
    TokenStream.withCollector className f (collectorEntry d g rest :: more)
      = ⟨.object f, ⟨className, "AddReferencedObjects", 0⟩⟩ :: more := by
  unfold collectorEntry
  split <;> rfl

end

theorem fieldEntries_append (line : Lineage) (c : ClassSpec) : ∀ start pos,
    fieldEntries start pos (line ++ [c]) = line.fieldEntries start pos ++
      c.fields.emit c.name "" (start + (line.fieldEntries start pos).length) (pos + line.width) := by
  induction line with
  | nil => simp [fieldEntries, width]
  | cons d rest ih =>
    intro start pos
    simp only [List.cons_append, fieldEntries, ih, width, List.length_append, List.append_assoc,
      Nat.add_assoc]

/-- What a subclass adds to the entries of its superclasses makes them the entries of all together. -/
theorem extend_entries (line : Lineage) (c : ClassSpec) : ∀ start pos,
    entries start pos (line ++ [c]) =
      (let body := line.entries start pos ++
        c.fields.emit c.name "" (start + (line.entries start pos).length) (pos + line.width)
      match c.collector with
      | some f => TokenStream.withCollector c.name f body
      | none => body) := by
  induction line with
  | nil =>
    intro start pos
    cases hc : c.collector with
    | none => simp [entries, width, hc]
    | some f =>
      have hpass := Spells.withCollector_append c.name f
        (fun e he => (Fields.emit_plain c.name c.fields "" start pos e he).2) []
      simpa [entries, collectorEntry, declarer, fieldEntries, width, hc,
        TokenStream.withCollector] using hpass.symm
  | cons d rest ih =>
    intro start pos
    have hpass := fun f => Spells.withCollector_append c.name f
      (fun e he => (Fields.emit_plain d.name d.fields "" start pos e he).2)
    cases hd : d.collector with
    | none =>
      simp only [List.cons_append, entries, hd, ih, width, List.append_assoc, List.length_append,
        ← Nat.add_assoc]
      cases c.collector with
      | none => rfl
      | some f => exact (hpass f _).symm
    | some g =>
      have hindex (n : Nat) : start + ((d.fields.emit d.name "" start pos).length + (n + 1))
          = start + (d.fields.emit d.name "" start pos).length + 1 + n := by omega
      simp only [List.cons_append, entries, hd, fieldEntries_append, width, List.append_assoc,
        List.length_append, List.length_cons, hindex, ← Nat.add_assoc pos]
      cases hc : c.collector with
      | none => rw [collectorEntry_append_of_none hc]
      | some f =>
        rw [collectorEntry_append_of_some hc]
        simp only [hpass, withCollector_collectorEntry]

theorem build_append (line : Lineage) (c : ClassSpec) :
    build (line ++ [c]) = (line.build.1 + c.fields.width,
      some (.assemble c.name line.build.1 c.fields c.collector line.build.2)) := by
  simp [build]

theorem no_stop_fieldEntries (line : Lineage) : ∀ start pos, ∀ e ∈ line.fieldEntries start pos,
    e.token.isStop = false := by
  induction line with
  | nil =>
    intro start pos e he
    cases he
  | cons c rest ih =>
    intro start pos e he
    rcases List.mem_append.mp he with he | he
    · exact (Fields.emit_plain c.name c.fields "" start pos e he).1
    · exact ih _ _ e he

theorem no_stop_entries (line : Lineage) : ∀ start pos, ∀ e ∈ line.entries start pos,
    e.token.isStop = false := by
  induction line with
  | nil =>
    intro start pos e he
    cases he
  | cons c rest ih =>
    intro start pos e he
    rcases List.mem_append.mp he with he | he
    · exact (Fields.emit_plain c.name c.fields "" start pos e he).1
    · cases hc : c.collector with
      | none =>
        rw [hc] at he
        exact ih _ _ e he
      | some f =>
        rw [hc] at he
        rcases List.mem_cons.mp he with rfl | he
        · unfold collectorEntry
          split <;> rfl
        · exact no_stop_fieldEntries rest _ _ e he

theorem extend_completed (line : Lineage) (c : ClassSpec) :
    completed c.name c.collector (line.entries 0 0 ++
        c.fields.emit c.name "" (line.entries 0 0).length line.width)
      = entries 0 0 (line ++ [c]) ++ [⟨.stop, ⟨c.name, "EndOfStream", 0⟩⟩] := by
  rw [extend_entries, Nat.zero_add, Nat.zero_add]
  rfl

end Lineage

namespace Schema

variable {s : Schema} {id : ClassId} {e : ClassEntry} {ts : TokenStream}

/-- The entries of a registered class are those of its lineage, and its end. -/
theorem Layered.entries_eq (hs : s.Layered) : ∀ id e, s.get? id = some e → ∀ ts, e.stream = .ok ts →
    ts.entries.toList
      = (s.lineage id).entries 0 0 ++ [⟨.stop, ⟨e.spec.name, "EndOfStream", 0⟩⟩] := by
  refine hs.induct ?_ ?_
  · intro id e he hsup hl ts hts
    obtain ⟨-, hbase, -, hstream⟩ := layOut_ok hl
    rw [hstream] at hts
    rw [TokenStream.assemble_entries hts, lineage_root he hsup, hbase]
    exact Lineage.extend_completed [] e.spec
  · intro id e p q he hsup hlt hq hl ih ts hts
    obtain ⟨-, hbase, -, hstream⟩ := layOut_ok hl
    rw [hstream] at hts
    obtain ⟨us, hus, hts⟩ := except_bind_ok hts
    have hfront : TokenStream.inherited (some us) = (s.lineage p).entries 0 0 := by
      rw [TokenStream.inherited, ih us hus, List.filter_append, List.filter_eq_self.mpr]
      · exact List.append_nil _
      · intro e he
        simp [Lineage.no_stop_entries _ _ _ e he]
    rw [TokenStream.assemble_entries hts, lineage_child he hsup hlt, hfront, hbase]
    have hwidth : q.width = (s.lineage p).width := hs.width_lineage p q hq
    simp only [Option.map_some, Option.getD_some, hwidth]
    exact Lineage.extend_completed _ e.spec

/-- The two lists that are built up class by class are the tokens and the origins of the stream. -/
theorem Layered.build_eq (hs : s.Layered) : ∀ id e, s.get? id = some e → ∀ ts, e.stream = .ok ts →
    (s.lineage id).build = (e.width, some (.of e.spec.name ts.entries.toList)) := by
  refine hs.induct ?_ ?_
  · intro id e he hsup hl ts hts
    obtain ⟨-, hbase, hwidth, hstream⟩ := layOut_ok hl
    rw [hstream] at hts
    have hbuild := Lineage.build_append [] e.spec
    rw [List.nil_append] at hbuild
    rw [TokenStream.assemble_entries hts, lineage_root he hsup, hbuild, hwidth, hbase]
    exact congrArg (fun b => (_, some b)) StreamBuilder.assemble_root
  · intro id e p q he hsup hlt hq hl ih ts hts
    obtain ⟨-, hbase, hwidth, hstream⟩ := layOut_ok hl
    rw [hs.entries_eq id e he ts hts]
    rw [hstream] at hts
    obtain ⟨us, hus, hts⟩ := except_bind_ok hts
    rw [lineage_child he hsup hlt, Lineage.build_append, ih us hus, hwidth, hbase,
      hs.entries_eq p q hq us hus, ← Lineage.extend_completed, ← hs.width_lineage p q hq]
    exact congrArg (fun b => (_, some b))
      (StreamBuilder.assemble_child _ (Lineage.no_stop_entries _ _ _) rfl)

end Schema

end TracingHeap
