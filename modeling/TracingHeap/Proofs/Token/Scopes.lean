import TracingHeap.Proofs.Token.Assembly

namespace TracingHeap

namespace Token

def isReturn : Token → Bool
  | ret => true
  | _ => false

@[simp] theorem isReturn_ret : isReturn ret = true := rfl

/-- How many scopes are open behind the tokens if `depth` are open in front of them; none of the tokens may
close a scope that is not open. -/
def depthAfter : (depth : Nat) → List Token → Option Nat
  | depth, [] => some depth
  | depth, t :: rest =>
    if t.isReturn then
      match depth with
      | 0 => none
      | d + 1 => depthAfter d rest
    else depthAfter (if t.skip?.isSome then depth + 1 else depth) rest

/-- How many tokens stand in front of the one that closes the innermost scope, if `depth` more are open
inside it. -/
def closing : (depth : Nat) → List Token → Option Nat
  | _, [] => none
  | depth, t :: rest =>
    if t.isReturn then
      match depth with
      | 0 => some 0
      | d + 1 => (closing d rest).map (· + 1)
    else (closing (if t.skip?.isSome then depth + 1 else depth) rest).map (· + 1)

theorem isReturn_of_skip {t : Token} {n : Nat} (h : t.skip? = some n) : t.isReturn = false := by
  cases t <;> first | rfl | cases h

end Token

/-- The tokens, of which the first is at index `start`, are single tokens and scopes, one after the other. -/
inductive Scoped : Nat → List Token → Prop where
  | nil (start : Nat) : Scoped start []
  | token {start : Nat} {t : Token} {rest : List Token} (hskip : t.skip? = none)
      (hreturn : t.isReturn = false) (hrest : Scoped (start + 1) rest) : Scoped start (t :: rest)
  | scope {start : Nat} {t : Token} {inner rest : List Token}
      (hskip : t.skip? = some (start + inner.length + 2)) (hinner : Scoped (start + 1) inner)
      (hrest : Scoped (start + inner.length + 2) rest) : Scoped start (t :: (inner ++ .ret :: rest))

namespace Scoped

variable {start i n : Nat} {t : Token} {ts us more : List Token}

theorem append (h : Scoped start ts) (hu : Scoped (start + ts.length) us) :
    Scoped start (ts ++ us) := by
  induction h with
  | nil => exact hu
  | @token start t rest hskip hreturn hrest ih =>
    refine .token hskip hreturn (ih ?_)
    rwa [List.length_cons, Nat.add_comm _ 1, ← Nat.add_assoc] at hu
  | @scope start t inner rest hskip hinner hrest _ ih =>
    rw [List.cons_append, List.append_assoc, List.cons_append]
    refine .scope hskip hinner (ih ?_)
    have hlength : start + (t :: (inner ++ Token.ret :: rest)).length
        = start + inner.length + 2 + rest.length := by
      simp
      omega
    rwa [hlength] at hu

/-- A scope is as deep behind such tokens as in front of them. -/
theorem depthAfter_append (h : Scoped start ts) : ∀ depth more,
    Token.depthAfter depth (ts ++ more) = Token.depthAfter depth more := by
  induction h with
  | nil => exact fun _ _ => rfl
  | token hskip hreturn _ ih =>
    intro depth more
    simp [Token.depthAfter, hskip, hreturn, ih]
  | scope hskip _ _ ihinner ihrest =>
    intro depth more
    simp [Token.depthAfter, hskip, Token.isReturn_of_skip hskip, ihinner, ihrest]

/-- Such tokens do not close a scope that was opened in front of them. -/
theorem closing_append (h : Scoped start ts) : ∀ depth more,
    Token.closing depth (ts ++ more) = (Token.closing depth more).map (· + ts.length) := by
  induction h with
  | nil =>
    intro depth more
    simp
  | token hskip hreturn _ ih =>
    intro depth more
    simp [Token.closing, hskip, hreturn, ih, Function.comp_def, Nat.add_assoc]
  | scope hskip _ _ ihinner ihrest =>
    intro depth more
    simp [Token.closing, hskip, Token.isReturn_of_skip hskip, ihinner, ihrest, Function.comp_def]
    refine congrArg (Option.map · _) (funext fun k => ?_)
    omega

/-- What an array token opens: the tokens inside are of the same form, and a return token follows them, right in
front of where the array token points. -/
theorem inside (h : Scoped start ts) (ht : ts[i]? = some t) (hn : t.skip? = some n) :
    ∃ inner after, ts.drop (i + 1) = inner ++ .ret :: after ∧ Scoped (start + i + 1) inner ∧
      n = start + i + inner.length + 2 := by
  induction h generalizing i with
  | nil => cases ht
  | @token start t' rest hskip _ _ ih =>
    cases i with
    | zero =>
      obtain rfl : t' = t := by simpa using ht
      rw [hskip] at hn
      cases hn
    | succ i =>
      obtain ⟨inner, after, hdrop, hinner, rfl⟩ := ih (by simpa using ht)
      exact ⟨inner, after, hdrop, by rwa [show start + (i + 1) = start + 1 + i by omega], by omega⟩
  | @scope start t' inner rest hskip hinner hrest ihinner ihrest =>
    cases i with
    | zero =>
      obtain rfl : t' = t := by simpa using ht
      rw [hskip] at hn
      cases hn
      exact ⟨inner, rest, rfl, hinner, rfl⟩
    | succ i =>
      rw [List.getElem?_cons_succ] at ht
      rw [List.drop_succ_cons]
      rcases Nat.lt_trichotomy i inner.length with hlt | rfl | hlt
      · rw [List.getElem?_append_left hlt] at ht
        obtain ⟨deeper, after, hdrop, hdeeper, rfl⟩ := ihinner ht
        refine ⟨deeper, after ++ .ret :: rest, ?_, ?_, by omega⟩
        · rw [List.drop_append_of_le_length (by omega), hdrop, List.append_assoc]
          rfl
        · rwa [show start + (i + 1) = start + 1 + i by omega]
      · rw [List.getElem?_append_right (Nat.le_refl _), Nat.sub_self] at ht
        obtain rfl : Token.ret = t := by simpa using ht
        cases hn
      · obtain ⟨k, rfl⟩ : ∃ k, i = inner.length + 1 + k := ⟨i - inner.length - 1, by omega⟩
        have hlater : (inner ++ .ret :: rest)[inner.length + 1 + k]? = rest[k]? := by
          rw [List.getElem?_append_right (by omega), Nat.add_assoc, Nat.add_sub_cancel_left,
            Nat.add_comm 1, List.getElem?_cons_succ]
        obtain ⟨deeper, after, hdrop, hdeeper, rfl⟩ := ihrest (hlater.symm.trans ht)
        refine ⟨deeper, after, ?_, ?_, by omega⟩
        · rw [← hdrop, Nat.add_assoc, Nat.add_assoc, List.drop_append, Nat.add_comm 1 (k + 1)]
          simp
        · rwa [show start + (inner.length + 1 + k + 1) = start + inner.length + 2 + k by omega]

/-- The return found by counting is the one right in front of where an array token points. -/
theorem closing_drop (h : Scoped start ts) (ht : ts[i]? = some t) (hn : t.skip? = some n) :
    ∃ k, Token.closing 0 (ts.drop (i + 1)) = some k ∧ n = start + i + k + 2 := by
  obtain ⟨inner, after, hdrop, hinner, rfl⟩ := h.inside ht hn
  refine ⟨inner.length, ?_, rfl⟩
  rw [hdrop, hinner.closing_append]
  simp [Token.closing]

/-- A later scope ends inside an earlier one or begins behind it. -/
theorem apart (h : Scoped start ts) {j m : Nat} {u : Token} (ht : ts[i]? = some t)
    (hn : t.skip? = some n) (hu : ts[j]? = some u) (hm : u.skip? = some m) (hij : i < j) :
    m < n ∨ n ≤ start + j := by
  obtain ⟨inner, after, hdrop, hinner, rfl⟩ := h.inside ht hn
  obtain ⟨k, rfl⟩ : ∃ k, j = i + 1 + k := ⟨j - i - 1, by omega⟩
  rw [← List.getElem?_drop, hdrop] at hu
  rcases Nat.lt_trichotomy k inner.length with hlt | rfl | hlt
  · rw [List.getElem?_append_left hlt] at hu
    obtain ⟨deeper, _, hdeep, -, rfl⟩ := hinner.inside hu hm
    have hlength := congrArg List.length hdeep
    simp only [List.length_drop, List.length_append, List.length_cons] at hlength
    exact .inl (by omega)
  · rw [List.getElem?_append_right (Nat.le_refl _), Nat.sub_self] at hu
    obtain rfl : Token.ret = u := by simpa using hu
    cases hm
  · exact .inr (by omega)

end Scoped

theorem Scoped.scope_entries {start : Nat} {opener close : Entry} {inner : List Entry}
    (hskip : opener.token.skip? = some (start + inner.length + 2)) (hclose : close.token = .ret)
    (hinner : Scoped (start + 1) (inner.map (·.token))) :
    Scoped start ((opener :: inner ++ [close]).map (·.token)) := by
  have h : Scoped start (opener.token :: (inner.map (·.token) ++ .ret :: [])) :=
    .scope (by rwa [List.length_map]) hinner (.nil _)
  simpa [hclose] using h

mutual

theorem Kind.scoped_emit (className : String) : (k : Kind) → ∀ (field : String)
    (start offset : Nat), Scoped start ((k.emit className field start offset).map (·.token))
  | .value, _, start, _ => .nil start
  | .reference _, _, start, _ | .references _, _, start, _ => .token rfl rfl (.nil _)
  | .inline _ fields, field, start, offset => fields.scoped_emit className _ start offset
  | .container spec, field, start, offset => by
    simp only [Kind.emit]
    split
    · exact .token rfl rfl (.nil _)
    · exact .nil start
  | .fixed element count, field, start, offset => by
    simp only [Kind.emit]
    split
    · exact .nil start
    split
    · exact element.scoped_emit className field start offset
    · exact .scope_entries rfl rfl (element.scoped_emit className field (start + 1) 0)
  | .structs _ fields, field, start, offset => by
    simp only [Kind.emit]
    split
    · exact .scope_entries rfl rfl (fields.scoped_emit className _ (start + 1) 0)
    · exact .nil start

theorem Fields.scoped_emit (className : String) : (fs : Fields) → ∀ (path : String)
    (start offset : Nat), Scoped start ((fs.emit className path start offset).map (·.token))
  | .nil, _, start, _ => .nil start
  | .cons name kind rest, path, start, offset => by
    rw [Fields.emit, List.map_append]
    refine (kind.scoped_emit className _ start offset).append ?_
    rw [List.length_map]
    exact rest.scoped_emit className path _ _

end

namespace Lineage

theorem scoped_fieldEntries (line : Lineage) : ∀ start pos,
    Scoped start ((line.fieldEntries start pos).map (·.token)) := by
  induction line with
  | nil => exact fun start _ => .nil start
  | cons c rest ih =>
    intro start pos
    rw [fieldEntries, List.map_append]
    refine (c.fields.scoped_emit c.name "" start pos).append ?_
    rw [List.length_map]
    exact ih _ _

theorem token_collectorEntry (c : ClassSpec) (f : ObjectCollector) (rest : Lineage) :
    ∃ g, (collectorEntry c f rest).token = .object g := by
  unfold collectorEntry
  split <;> exact ⟨_, rfl⟩

theorem scoped_entries (line : Lineage) : ∀ start pos,
    Scoped start ((line.entries start pos).map (·.token)) := by
  induction line with
  | nil => exact fun start _ => .nil start
  | cons c rest ih =>
    intro start pos
    rw [entries, List.map_append]
    refine (c.fields.scoped_emit c.name "" start pos).append ?_
    rw [List.length_map]
    cases c.collector with
    | none => exact ih _ _
    | some f =>
      obtain ⟨g, hg⟩ := token_collectorEntry c f rest
      rw [List.map_cons, hg]
      exact .token rfl rfl (scoped_fieldEntries rest _ _)

/-- The tokens of fields hold no collector for whole objects. -/
theorem countP_emit (c : ClassSpec) (start pos : Nat) :
    (c.fields.emit c.name "" start pos).countP (·.token.isObject) = 0 :=
  List.countP_eq_zero.mpr fun e he =>
    Bool.eq_false_iff.mp (Fields.emit_plain c.name c.fields "" start pos e he).2

theorem countP_fieldEntries (line : Lineage) : ∀ start pos,
    (line.fieldEntries start pos).countP (·.token.isObject) = 0 := by
  induction line with
  | nil => exact fun _ _ => rfl
  | cons c rest ih =>
    intro start pos
    rw [fieldEntries, List.countP_append, countP_emit, ih]

theorem countP_entries (line : Lineage) : ∀ start pos,
    (line.entries start pos).countP (·.token.isObject) ≤ 1 := by
  induction line with
  | nil => exact fun _ _ => Nat.zero_le 1
  | cons c rest ih =>
    intro start pos
    rw [entries, List.countP_append, countP_emit, Nat.zero_add]
    cases c.collector with
    | none => exact ih _ _
    | some f =>
      obtain ⟨g, hg⟩ := token_collectorEntry c f rest
      rw [List.countP_cons, countP_fieldEntries]
      split <;> decide

end Lineage

namespace TokenStream

def tokens (ts : TokenStream) : List Token := ts.entries.toList.map (·.token)

def origins (ts : TokenStream) : List Origin := ts.entries.toList.map (·.origin)

/-- The stream ends in its only end token and has at most one collector for whole objects; what its scopes open
they close, every array token points right behind its own return, and scopes lie inside one another or
apart. -/
structure WellNested (ts : TokenStream) : Prop where
  ends : ∃ front, ts.tokens = front ++ [.stop] ∧ ∀ t ∈ front, t.isStop = false
  one_collector : ts.tokens.countP Token.isObject ≤ 1
  closed : Token.depthAfter 0 ts.tokens = some 0
  matched : ∀ i t skip, ts.token? i = some t → t.skip? = some skip →
    ∃ k, Token.closing 0 (ts.tokens.drop (i + 1)) = some k ∧ skip = i + 1 + k + 1
  apart : ∀ i j t u m n, ts.token? i = some t → t.skip? = some m → ts.token? j = some u →
    u.skip? = some n → i < j → n < m ∨ m ≤ j

end TokenStream

/-- The stream of a registered class is well nested. -/
theorem Schema.Layered.wellNested {s : Schema} (hs : s.Layered) {id : ClassId} {e : ClassEntry}
    {ts : TokenStream} (he : s.get? id = some e) (hts : e.stream = .ok ts) : ts.WellNested := by
  have hentries := hs.entries_eq id e he ts hts
  have htokens : ts.tokens = ((s.lineage id).entries 0 0).map (·.token) ++ [.stop] := by
    rw [TokenStream.tokens, hentries, List.map_append]
    rfl
  have hat (i : Nat) : ts.token? i = ts.tokens[i]? := by
    simp [TokenStream.token?, TokenStream.tokens]
  have hscoped : Scoped 0 ts.tokens := by
    rw [htokens]
    exact ((s.lineage id).scoped_entries 0 0).append (.token rfl rfl (.nil _))
  refine ⟨⟨_, htokens, ?_⟩, ?_, ?_, fun i t skip ht hskip => ?_, fun i j t u m n ht hm hu hn hij => ?_⟩
  · intro t ht
    obtain ⟨d, hd, rfl⟩ := List.mem_map.mp ht
    exact Lineage.no_stop_entries _ _ _ d hd
  · rw [htokens, List.countP_append, List.countP_map]
    exact (s.lineage id).countP_entries 0 0
  · rw [← List.append_nil ts.tokens, hscoped.depthAfter_append]
    rfl
  · obtain ⟨k, hk, rfl⟩ := hscoped.closing_drop (hat i ▸ ht) hskip
    exact ⟨k, hk, by omega⟩
  · have h := hscoped.apart (hat i ▸ ht) hm (hat j ▸ hu) hn hij
    rwa [Nat.zero_add] at h

end TracingHeap
