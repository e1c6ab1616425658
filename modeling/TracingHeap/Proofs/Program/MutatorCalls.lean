import TracingHeap.Proofs.Table.Counting
import TracingHeap.Proofs.Program.History
import TracingHeap.Proofs.Purge.Call

namespace TracingHeap

def Flag.stages : List Flag := [.unreachable, .beginDestroyed, .finishDestroyed]

/-- One object as it was and as it is, at one stage of its destruction. -/
structure Object.SameStage (o o' : Object) : Prop extends o.Same o' where
  unreachable : o'.isUnreachable = o.isUnreachable
  begun : o'.has .beginDestroyed = o.has .beginDestroyed
  finished : o'.has .finishDestroyed = o.has .finishDestroyed

theorem Object.SameStage.of_flags {o o' : Object} (hs : o.Same o')
    (hf : ∀ f ∈ Flag.stages, o'.has f = o.has f) :
    o.SameStage o' :=
  ⟨hs, hf _ (by decide), hf _ (by decide), hf _ (by decide)⟩

namespace Table

/-- No object has moved on in its destruction, the new ones have no flag, and none has left the
permanent pool. -/
structure Abides (t t' : Table) : Prop where
  tidy : t'.Tidy
  kept : ∀ h o, t.get? h = some o → ∃ o', t'.get? h = some o' ∧ o.SameStage o'
  back : ∀ h o', t'.get? h = some o' →
    (∃ o, t.get? h = some o ∧ o.SameStage o') ∨ ∀ f, o'.has f = false
  collectable : ∀ h o, t'.get? h = some o → t'.isPermanent h = false → t.isPermanent h = false

namespace Abides

variable {t t' : Table} {h : Handle} {o o' : Object}

theorem refl (ht : t.Tidy) : t.Abides t :=
  ⟨ht, fun _ o ho => ⟨o, ho, ⟨rfl, rfl, rfl⟩, rfl, rfl, rfl⟩,
    fun _ o ho => .inl ⟨o, ho, ⟨rfl, rfl, rfl⟩, rfl, rfl, rfl⟩, fun _ _ _ hp => hp⟩

theorem of_evolves {R : Handle → Object → Object → Prop} (ht : t.Tidy) (ev : t.Evolves R t')
    (hR : ∀ h o o', R h o o' → o.SameStage o') : t.Abides t' := by
  refine ⟨ev.tidy ht, fun h o ho => ?_, fun h o' ho' => ?_, fun h o _ hp => ?_⟩
  · obtain ⟨o', ho', hr⟩ := ev.kept h o ho
    exact ⟨o', ho', hR h o o' hr⟩
  · obtain ⟨o, ho, hr⟩ := ev.back ho'
    exact .inl ⟨o, ho, hR h o o' hr⟩
  · rwa [ev.isPermanent] at hp

/-- A change of one object. -/
theorem modify (ht : t.Tidy) {f : Object → Object} (hf : ∀ o : Object, o.SameStage (f o))
    (h : Handle) : t.Abides (t.modify h f) := by
  apply of_evolves (R := fun _ o o' => o.SameStage o') ht _ (fun _ _ _ hr => hr)
  exact Evolves.modify (fun o => (hf o).handle) (fun o _ => hf o)
    fun _ _ _ _ => ⟨⟨rfl, rfl, rfl⟩, rfl, rfl, rfl⟩

theorem of_adds {o : Object} (a : t.Adds t' o) (hflags : ∀ f, o.has f = false) : t.Abides t' := by
  refine ⟨a.tidy, fun h p hp => ⟨p, a.kept hp, ⟨rfl, rfl, rfl⟩, rfl, rfl, rfl⟩, fun h p hp => ?_,
    fun h _ _ hp => (a.isPermanent h).symm.trans hp⟩
  rcases a.back hp with he | hp
  · exact .inr (he ▸ hflags)
  · exact .inl ⟨p, hp, ⟨rfl, rfl, rfl⟩, rfl, rfl, rfl⟩

/-- An object with a flag was there before. -/
theorem back_of_has (a : t.Abides t') (ho : t'.get? h = some o') {f : Flag}
    (hf : o'.has f = true) : ∃ o, t.get? h = some o ∧ o.SameStage o' := by
  refine (a.back h o' ho).resolve_right fun hnone => ?_
  rw [hnone] at hf
  cases hf

end Abides

end Table

variable {p : Purge} {t t' : Table}

theorem Table.Staged.abides (hs : t.Staged) (a : t.Abides t') : t'.Staged := by
  intro h o' ho' hstage
  obtain ⟨o, ho, hsame⟩ := hstage.elim (a.back_of_has ho') (a.back_of_has ho')
  rw [hsame.begun, hsame.finished] at hstage
  rw [hsame.unreachable]
  exact hs h o ho hstage

/-- Where the first phase goes on, or begins, nothing has changed for it. -/
theorem Table.Underway.abides {c c' : Nat} {parked : Array Handle} (u : t.Underway c parked)
    (a : t.Abides t') (hahead : ∀ h o, t'.get? h = some o → c' ≤ h.index → c ≤ h.index)
    (hbehind : ∀ h, t'.isPermanent h = false → h.index < c' → h.index < c) :
    t'.Underway c' parked := by
  refine ⟨fun h o' ho' hu hc => ?_, fun h o' ho' hu hp hc => ?_, fun h hh => ?_, u.distinct⟩
  · obtain ⟨o, ho, hsame⟩ := a.back_of_has ho' hu
    rw [hsame.unreachable] at hu
    rw [hsame.begun, hsame.finished]
    exact u.ahead h o ho hu (hahead h o' ho' hc)
  · obtain ⟨o, ho, hsame⟩ := a.back_of_has ho' hu
    rw [hsame.unreachable] at hu
    rw [hsame.begun, hsame.finished]
    exact u.behind h o ho hu (a.collectable h o' ho' hp) (hbehind h hp hc)
  · obtain ⟨o, ho, hu, hb, hf⟩ := u.waiting h hh
    obtain ⟨o', ho', hsame⟩ := a.kept h o ho
    exact ⟨o', ho', hsame.unreachable.trans hu, hsame.begun.trans hb, hsame.finished.trans hf⟩

/-- A purge can be carried on where it was cut off. -/
theorem Purge.Stands.abides (hp : p.Stands t) (a : t.Abides t') : p.Stands t' := by
  have hahead : ∀ h o, t'.get? h = some o → (p.placeCursor t').cursor ≤ h.index →
      (p.placeCursor t).cursor ≤ h.index := by
    intro h o ho hc
    rw [placeCursor_le_index] at hc ⊢
    split
    · rename_i hr
      rw [if_pos hr] at hc
      exact a.collectable h o ho hc
    · rename_i hr
      rwa [if_neg hr] at hc
  have hback : ∀ h, t'.isPermanent h = false → (p.placeCursor t).cursor ≤ h.index →
      (p.placeCursor t').cursor ≤ h.index := by
    intro h hperm hc
    rw [placeCursor_le_index] at hc ⊢
    split
    · exact hperm
    · rename_i hr
      rwa [if_neg hr] at hc
  refine ⟨a.tidy, hp.staged.abides a, fun hreq => ?_, fun hreq hrouted => ?_,
    fun hreq hrouted => ?_⟩
  · obtain ⟨hparked, hnone⟩ := hp.idle hreq
    refine ⟨hparked, fun h o' ho' hperm => ?_⟩
    cases hu : o'.isUnreachable with
    | false => rfl
    | true =>
      obtain ⟨o, ho, hsame⟩ := a.back_of_has ho' hu
      rw [hsame.unreachable, hnone h o ho (a.collectable h o' ho' hperm)] at hu
      cases hu
  · refine (hp.underway hreq hrouted).abides a hahead fun h hperm hc => ?_
    exact Nat.lt_of_not_le fun hle => Nat.not_le_of_lt hc (hback h hperm hle)
  · obtain ⟨hparked, hripe, hleft⟩ := hp.ripe hreq hrouted
    refine ⟨hparked, fun h o' ho' hu hc => ?_, fun h o' ho' hu hperm => ?_⟩
    · obtain ⟨o, ho, hsame⟩ := a.back_of_has ho' hu
      rw [hsame.unreachable] at hu
      rw [hsame.begun, hsame.finished]
      exact hripe h o ho hu (hahead h o' ho' hc)
    · obtain ⟨o, ho, hsame⟩ := a.back_of_has ho' hu
      rw [hsame.unreachable] at hu
      exact hback h hperm (hleft h o ho hu (a.collectable h o' ho' hperm))

/-- Whether a call may collect, or carry a purge on. -/
def Operation.collects : Operation → Bool
  | collect .. | tryCollect .. | purge _ | shutdown => true
  | _ => false

def Operation.Classes (op : Operation) (s s' : Schema) : Prop :=
  s' = s ∨ ∃ spec id, op = .registerClass spec ∧ s.register spec = .ok (id, s')

/-- Whether a call writes to a slot: it makes the slot hold a reference, puts a cell in its place, or
changes the cells of the object at will and leaves something else in the slot. An entry is appended behind
the slots there are. -/
def Operation.Writes (t : Table) (x : Site) : Operation → Prop
  | setReference h offset _ => x = ⟨h, ⟨offset, .here⟩⟩
  | putCell h offset _ => x.object = h ∧ x.address.offset = offset
  | revise h f => x.object = h ∧
    ∃ o, t.get? h = some o ∧ Cell.slotAt? (f o.cells) x.address ≠ o.slot? x.address
  | _ => False

/-- What a call that does not collect leaves of a purge, of the scratch lists and of the slots. -/
structure Operation.Respects (op : Operation) (c d : Collector) : Prop where
  schema : op.Classes c.schema d.schema
  abides : c.table.Abides d.table
  purge : d.purge = c.purge
  pool : d.pool = c.pool
  lifecycle : ∀ o, c.schema.Fits o → d.schema.lifecycle o.classId = c.schema.lifecycle o.classId
  events : op ≠ .drain → d.journal.events = c.journal.events
  boundary : op ≠ .closePermanentPool → d.table.boundary = c.table.boundary
  rooted : ∀ h o o', op ≠ .removeRoot h → c.table.get? h = some o → o.has .rootSet = true →
    d.table.get? h = some o' → o'.has .rootSet = true
  noStrong : ∀ h o o', c.table.get? h = some o → d.table.get? h = some o' →
    o'.has .noStrongReference = o.has .noStrongReference
  counted : c.table.Counted → d.table.Counted
  slots : ∀ x s, ¬ op.Writes c.table x → c.table.slotAt? x = some s → d.table.slotAt? x = some s

namespace Cell

variable {cell : Cell} {p : Place} {s target : Slot}

/-- A reference cell is its only slot. -/
theorem place_of_reference (hk : cell.kindName = "reference") (hs : cell.slot? p = some s) :
    p = .here := by
  cases cell with
  | ref slot => cases p <;> first | rfl | cases hs
  | _ => exact absurd hk (by simp [kindName])

/-- What is appended leaves the slots as they are. -/
theorem slot?_hold_array (hk : cell.kindName = "reference array") (hs : cell.slot? p = some s) :
    (cell.hold target).slot? p = some s := by
  cases cell with
  | refs slots =>
    cases p with
    | item i =>
      change slots[i]? = some s at hs
      change (slots.push target)[i]? = some s
      obtain ⟨hi, -⟩ := Array.getElem?_eq_some_iff.mp hs
      rw [Array.getElem?_push, if_neg (Nat.ne_of_lt hi), hs]
    | _ => cases hs
  | _ => exact absurd hk (by simp [kindName])

theorem slotAt?_eq_some {cells : Array Cell} {a : Address} : slotAt? cells a = some s ↔
    ∃ cell, cells[a.offset]? = some cell ∧ cell.slot? a.place = some s := by
  cases hc : cells[a.offset]? <;> simp [slotAt?, hc]

end Cell

theorem Table.slotAt?_eq_some {t : Table} {x : Site} {s : Slot} : t.slotAt? x = some s ↔
    ∃ o, t.get? x.object = some o ∧ o.slot? x.address = some s := by
  cases ho : t.get? x.object <;> simp [slotAt?, ho]

/-- Objects in the same slots of the table as before have the same references. -/
theorem Table.slotAt?_of_kept {t t' : Table} (hkept : ∀ g o, t.get? g = some o → t'.get? g = some o)
    {x : Site} {s : Slot} (hs : t.slotAt? x = some s) : t'.slotAt? x = some s := by
  obtain ⟨o, ho, hslot⟩ := slotAt?_eq_some.mp hs
  exact slotAt?_eq_some.mpr ⟨o, hkept _ o ho, hslot⟩

namespace Collector

variable {c d : Collector} {h : Handle} {reply : Reply} {op : Operation}

/-- Where every object stays as it is, the roots do. -/
theorem rooted_of_kept (hkept : ∀ h o, c.table.get? h = some o → d.table.get? h = some o) :
    ∀ h o o', op ≠ .removeRoot h → c.table.get? h = some o → o.has .rootSet = true →
      d.table.get? h = some o' → o'.has .rootSet = true := by
  intro h o o' _ ho hr ho'
  rw [hkept h o ho] at ho'
  cases ho'
  exact hr

theorem noStrong_of_kept (hkept : ∀ h o, c.table.get? h = some o → d.table.get? h = some o) :
    ∀ h o o', c.table.get? h = some o → d.table.get? h = some o' →
      o'.has .noStrongReference = o.has .noStrongReference := by
  intro h o o' ho ho'
  rw [hkept h o ho] at ho'
  cases ho'
  rfl

/-- A call that leaves the heap and the purge alone. -/
theorem respects_same (hc : c.Sound) (htable : d.table = c.table) (hpurge : d.purge = c.purge)
    (hpool : d.pool = c.pool) (hschema : d.schema = c.schema)
    (hevents : op ≠ .drain → d.journal.events = c.journal.events) : op.Respects c d :=
  ⟨.inl hschema, by rw [htable]; exact .refl hc.settled.orderly.tidy, hpurge, hpool,
    fun _ _ => by rw [hschema], hevents, fun _ => by rw [htable],
    rooted_of_kept fun _ _ ho => by rw [htable, ho],
    noStrong_of_kept fun _ _ ho => by rw [htable, ho], fun hn => by rwa [htable],
    fun _ _ _ hs => by rwa [htable]⟩

theorem respects_refl (hc : c.Sound) : op.Respects c c :=
  respects_same hc rfl rfl rfl rfl fun _ => rfl

/-- A call that changes one object, and perhaps the clusters. -/
theorem respects_modify (hc : c.Sound) {f : Object → Object} (hf : ∀ o : Object, o.SameStage (f o))
    (hroot : op ≠ .removeRoot h → ∀ o : Object, o.has .rootSet = true → (f o).has .rootSet = true)
    (hstrong : ∀ o : Object, (f o).has .noStrongReference = o.has .noStrongReference)
    (hslots : ∀ o, c.table.get? h = some o → ∀ a s, ¬ op.Writes c.table ⟨h, a⟩ →
      o.slot? a = some s → (f o).slot? a = some s)
    (cs : Clusters) :
    op.Respects c { c with table := c.table.modify h f, clusters := cs } := by
  have hget : ∀ {g o o'}, c.table.get? g = some o → (c.table.modify h f).get? g = some o' →
      g = h ∧ o' = f o ∨ o' = o := by
    intro g o o' ho ho'
    rw [Table.get?_modify, ho] at ho'
    split at ho'
    · exact .inl ⟨‹_›, (Option.some.inj ho').symm⟩
    · exact .inr (Option.some.inj ho').symm
  have habides : c.table.Abides (c.table.modify h f) := .modify hc.settled.orderly.tidy hf h
  refine ⟨.inl rfl, habides, rfl, rfl, fun _ _ => rfl, fun _ => rfl, fun _ => rfl,
    fun g o o' hne ho hr ho' => ?_, fun g o o' ho ho' => ?_, fun hn => hn.modify h f,
    fun x s hw hs => ?_⟩
  · rcases hget ho ho' with ⟨rfl, rfl⟩ | rfl
    · exact hroot hne o hr
    · exact hr
  · rcases hget ho ho' with ⟨-, rfl⟩ | rfl
    · exact hstrong o
    · rfl
  · obtain ⟨g, a⟩ := x
    obtain ⟨o, ho, hslot⟩ := Table.slotAt?_eq_some.mp hs
    obtain ⟨o', ho', -⟩ := habides.kept g o ho
    refine Table.slotAt?_eq_some.mpr ⟨o', ho', ?_⟩
    rcases hget ho ho' with ⟨rfl, rfl⟩ | rfl
    · exact hslots o ho a s hw hslot
    · exact hslot

theorem sameStage_insert (o : Object) {m : Flags} (hm : ∀ f ∈ Flag.stages, m.has f = false) :
    o.SameStage (o.insertFlags m) := by
  refine .of_flags ⟨rfl, rfl, rfl⟩ fun f hf => ?_
  simp [Object.insertFlags, Object.has, hm f hf]

theorem sameStage_remove (o : Object) {m : Flags} (hm : ∀ f ∈ Flag.stages, m.has f = false) :
    o.SameStage (o.removeFlags m) := by
  refine .of_flags ⟨rfl, rfl, rfl⟩ fun f hf => ?_
  simp [Object.removeFlags, Object.has, hm f hf]

theorem stages_foreign {m : Flags} (hm : m.IsForeign) : ∀ f ∈ Flag.stages, m.has f = false := by
  have hsub : ∀ f ∈ Flag.stages, f ∈ Flags.collectorOwned := by decide
  exact fun f hf => hm f (hsub f hf)

theorem rooted_insert (o : Object) (m : Flags) (hr : o.has .rootSet = true) :
    (o.insertFlags m).has .rootSet = true := by
  simp only [Object.has] at hr
  simp [Object.insertFlags, Object.has, hr]

theorem noStrong_insert (o : Object) {m : Flags} (hm : m.has .noStrongReference = false) :
    (o.insertFlags m).has .noStrongReference = o.has .noStrongReference := by
  simp [Object.insertFlags, Object.has, hm]

theorem noStrong_remove (o : Object) {m : Flags} (hm : m.has .noStrongReference = false) :
    (o.removeFlags m).has .noStrongReference = o.has .noStrongReference := by
  simp [Object.removeFlags, Object.has, hm]

theorem setFlags_respects (hc : c.Sound) {m : Flags} (hm : ∀ f ∈ Flag.stages, m.has f = false)
    (hstrong : m.has .noStrongReference = false) : op.Respects c (c.setFlags h m).2 := by
  unfold setFlags
  split
  · exact respects_refl hc
  · exact respects_modify hc (fun o => sameStage_insert o hm) (fun _ o => rooted_insert o m)
      (fun o => noStrong_insert o hstrong) (fun _ _ _ _ _ hs => hs) c.clusters

theorem clearFlags_respects (hc : c.Sound) {m : Flags} (hm : ∀ f ∈ Flag.stages, m.has f = false)
    (hstrong : m.has .noStrongReference = false)
    (hroot : op ≠ .removeRoot h → m.has .rootSet = false) :
    op.Respects c (c.clearFlags h m).2 := by
  unfold clearFlags
  split
  · exact respects_refl hc
  · refine respects_modify hc (fun o => sameStage_remove o hm) (fun hne o hr => ?_)
      (fun o => noStrong_remove o hstrong) (fun _ _ _ _ _ hs => hs) c.clusters
    simp only [Object.has] at hr
    simp [Object.removeFlags, Object.has, hr, hroot hne]

theorem addRoot_respects (hc : c.Sound) : op.Respects c (c.addRoot h).2 := by
  unfold addRoot
  split
  · exact respects_refl hc
  · split
    · exact respects_refl hc
    · exact respects_modify hc (fun o => sameStage_insert o (m := .single .rootSet) (by decide))
        (fun _ o => rooted_insert o _) (fun o => noStrong_insert o (by decide))
        (fun _ _ _ _ _ hs => hs) c.clusters

theorem kill_respects (hc : c.Sound) : op.Respects c (c.kill h).2 := by
  unfold kill
  split
  · exact respects_refl hc
  · split
    · exact respects_refl hc
    · exact respects_modify hc (fun o => sameStage_insert o (m := .single .pendingKill) (by decide))
        (fun _ o => rooted_insert o _) (fun o => noStrong_insert o (by decide))
        (fun _ _ _ _ _ hs => hs) c.clusters

theorem registerClass_respects (hc : c.Sound) {spec : ClassSpec} {answer : Except HeapError ClassId}
    (hok : c.registerClass spec = .ok (answer, d)) : (Operation.registerClass spec).Respects c d := by
  unfold registerClass settle at hok
  split at hok
  · rename_i made hmade
    obtain ⟨e, hs, -, -⟩ := Schema.register_ok hmade
    cases hok
    refine ⟨.inr ⟨spec, _, rfl, hmade⟩, .refl hc.settled.orderly.tidy, rfl, rfl, fun o ho => ?_,
      fun _ => rfl, fun _ => rfl, rooted_of_kept fun _ _ ho => ho,
      noStrong_of_kept fun _ _ ho => ho, id, fun _ _ _ hs => hs⟩
    obtain ⟨⟨k, hk, -⟩, -⟩ := ho
    have hk' := Schema.get?_push e hk
    rw [← hs] at hk'
    simp only [Schema.lifecycle, hk, hk']
  · cases hok
    exact respects_refl hc
  · cases hok

theorem createObject_respects (hc : c.Sound) {id : ClassId} {name : String}
    {answer : Except HeapError Handle} (hok : c.createObject id name = .ok (answer, d)) :
    op.Respects c d := by
  have htidy := hc.settled.orderly.tidy
  unfold createObject at hok
  split at hok
  · cases hok
    exact respects_refl hc
  · cases hok
  · rename_i cells hcells
    cases hmade : c.table.allocate id name cells with
    | mk made t' =>
      have hcounted : c.table.Counted → t'.Counted := by
        intro hn
        have hn' : (c.table.allocate id name cells).2.Counted := hn.allocate htidy
        rwa [hmade] at hn'
      rw [hmade] at hok
      cases made with
      | none =>
        cases hok
        obtain ⟨htidy', hbound, hget⟩ := Table.allocate_none htidy hmade
        have ev : c.table.Evolves (fun _ o o' => o' = o) t' :=
          ⟨hbound, fun _ => htidy', fun h hn => (hget h).trans hn,
            fun h o ho => ⟨o, (hget h).trans ho, rfl⟩⟩
        exact ⟨.inl rfl, .of_evolves htidy ev fun _ _ _ he => he ▸ ⟨⟨rfl, rfl, rfl⟩, rfl, rfl, rfl⟩, rfl,
          rfl, fun _ _ => rfl, fun _ => rfl, fun _ => hbound,
          rooted_of_kept fun g _ ho => (hget g).trans ho,
          noStrong_of_kept fun g _ ho => (hget g).trans ho, hcounted,
          fun _ _ _ => Table.slotAt?_of_kept fun g _ ho => (hget g).trans ho⟩
      | some h =>
        cases hok
        have hadds := Table.allocate_some htidy hmade
        exact ⟨.inl rfl, .of_adds hadds fun f => Flags.has_empty f, rfl, rfl, fun _ _ => rfl,
          fun _ => rfl, fun _ => hadds.boundary, rooted_of_kept fun _ _ ho => hadds.kept ho,
          noStrong_of_kept fun _ _ ho => hadds.kept ho, hcounted,
          fun _ _ _ => Table.slotAt?_of_kept fun _ _ ho => hadds.kept ho⟩

theorem record_respects (hc : c.Sound) {f : Object → Object} (hf : ∀ o : Object, o.SameStage (f o))
    (hflags : ∀ o : Object, (f o).flags = o.flags)
    (hslots : ∀ o, c.table.get? h = some o → ∀ a s, ¬ op.Writes c.table ⟨h, a⟩ →
      o.slot? a = some s → (f o).slot? a = some s) {answer : Except HeapError Unit}
    (hok : ({ c with table := c.table.modify h f } : Collector).record h = .ok (answer, d)) :
    op.Respects c d := by
  have hroot : ∀ o : Object, o.has .rootSet = true → (f o).has .rootSet = true := by
    intro o hr
    rwa [Object.has, hflags]
  have hstrong : ∀ o : Object, (f o).has .noStrongReference = o.has .noStrongReference := by
    intro o
    rw [Object.has, Object.has, hflags]
  unfold record settle at hok
  split at hok
  · cases hok
    exact respects_modify hc hf (fun _ => hroot) hstrong hslots _
  · cases hok
    exact respects_modify hc hf (fun _ => hroot) hstrong hslots _
  · cases hok

theorem writeReference_respects (hc : c.Sound) {offset : Nat} {target : Slot} {expected : String}
    (hwrites : ∀ (cell : Cell) p s, cell.kindName = expected → cell.slot? p = some s →
      op.Writes c.table ⟨h, ⟨offset, p⟩⟩ ∨ (cell.hold target).slot? p = some s)
    {answer : Except HeapError Unit}
    (hok : c.writeReference h offset target expected = .ok (answer, d)) : op.Respects c d := by
  have hstage : ∀ o : Object, o.SameStage (o.modifyCell offset (·.hold target)) :=
    fun _ => ⟨⟨rfl, rfl, rfl⟩, rfl, rfl, rfl⟩
  unfold writeReference at hok
  split at hok
  · cases hok
    exact respects_refl hc
  · cases hok
    exact respects_refl hc
  · rename_i o _ hobject
    split at hok
    · rename_i hkind
      have ho := object_ok hobject
      have hslots : ∀ p, c.table.get? h = some p → ∀ a s, ¬ op.Writes c.table ⟨h, a⟩ →
          p.slot? a = some s → (p.modifyCell offset (·.hold target)).slot? a = some s := by
        intro p hp a s hw hs
        rw [ho] at hp
        cases hp
        change Cell.slotAt? (o.cells.modify offset (·.hold target)) a = some s
        rw [Object.slot?, Cell.slotAt?_eq_some] at hs
        obtain ⟨cell, hcell, hs⟩ := hs
        rw [Cell.slotAt?_eq_some, Array.getElem?_modify, hcell]
        split
        · rename_i he
          rw [he, hcell] at hkind
          have hk : cell.kindName = expected := by simpa using hkind
          exact ⟨_, rfl, (hwrites cell a.place s hk hs).resolve_left fun h' => hw (by rwa [he] at h')⟩
        · exact ⟨cell, rfl, hs⟩
      dsimp only at hok
      split at hok
      · exact record_respects hc hstage (fun _ => rfl) hslots hok
      · cases hok
        exact respects_modify hc hstage (fun _ _ hr => hr) (fun _ => rfl) hslots c.clusters
    · cases hok
      exact respects_refl hc

theorem revise_respects (hc : c.Sound) {f : Array Cell → Array Cell}
    (hwrites : ∀ o, c.table.get? h = some o → ∀ a s, o.slot? a = some s →
      op.Writes c.table ⟨h, a⟩ ∨ Cell.slotAt? (f o.cells) a = some s)
    {answer : Except HeapError Unit} (hok : c.revise h f = .ok (answer, d)) : op.Respects c d := by
  unfold revise at hok
  split at hok
  · cases hok
    exact respects_refl hc
  · exact record_respects hc (f := fun o => { o with cells := f o.cells })
      (fun _ => ⟨⟨rfl, rfl, rfl⟩, rfl, rfl, rfl⟩) (fun _ => rfl)
      (fun o ho a s hw hs => (hwrites o ho a s hs).resolve_left hw) hok

theorem counted_adopt (hn : c.table.Counted) (k : Cluster) : (k.adopt c.table).Counted := by
  have hfold : ∀ (l : List Handle) (t : Table), t.Counted →
      (l.foldl (fun t h => t.modify h (·.setOwner (some k.root))) t).Counted := by
    intro l
    induction l with
    | nil => exact fun _ ht => ht
    | cons h rest ih => exact fun t ht => ih _ (ht.modify h _)
  exact (hfold k.members c.table hn).modify k.root _

theorem formCluster_respects (hc : c.Sound) {root : Handle} {members : List Handle}
    {answer : Except HeapError Unit} (hok : c.formCluster root members = .ok (answer, d)) :
    op.Respects c d := by
  have hs := hc.settled
  unfold formCluster at hok
  rcases Cluster.form_cases hs.orderly.regular hs.orderly.fits root members with
    ⟨made, hmade, hfounded⟩ | ⟨e, he⟩ | ⟨f, hf, -⟩
  · simp only [hmade] at hok
    cases hok
    refine ⟨.inl rfl, .of_evolves hs.orderly.tidy hfounded.evolves fun g o o' he => ?_, rfl, rfl,
      fun _ _ => rfl, fun _ => rfl, fun _ => hfounded.evolves.boundary, fun g o o' _ ho hr ho' => ?_,
      fun g o o' ho ho' => ?_, fun hn => counted_adopt hn made, fun x s _ hs => ?_⟩
    · rw [he]
      have hthin : o.Thins c.schema (fun _ => False) (made.adopted g o) := made.thins_adopted g o
      exact ⟨hthin.toSame, Cluster.has_adopted (by decide), Cluster.has_adopted (by decide),
        Cluster.has_adopted (by decide)⟩
    · obtain ⟨p, hp, he⟩ := hfounded.evolves.kept g o ho
      rw [hp] at ho'
      cases ho'
      rwa [he, Cluster.has_adopted (by decide)]
    · obtain ⟨p, hp, he⟩ := hfounded.evolves.kept g o ho
      rw [hp] at ho'
      cases ho'
      rw [he, Cluster.has_adopted (by decide)]
    · obtain ⟨o, ho, hslot⟩ := Table.slotAt?_eq_some.mp hs
      obtain ⟨o', ho', he⟩ := hfounded.evolves.kept x.object o ho
      have hthin : o.Thins c.schema (fun _ => False) o' := he ▸ made.thins_adopted x.object o
      have hsame := (hthin.slot x.address).resolve_right fun ⟨_, _, hf, _⟩ => hf
      exact Table.slotAt?_eq_some.mpr ⟨o', ho', hsame.trans hslot⟩
  · simp only [he] at hok
    cases hok
    exact respects_refl hc
  · simp only [hf] at hok
    cases hok

theorem closePermanentPool_respects (hc : c.Sound)
    (hlast : ∀ o, c.table.slot? 4294967295 = some o →
      o.owner = none ∧ o.has .clusterRoot = false) :
    Operation.closePermanentPool.Respects c c.closePermanentPool := by
  have ht := (hc.settled.close hlast).orderly.tidy
  have habides : c.table.Abides c.closePermanentPool.table := by
    refine ⟨ht, fun _ o ho => ?_, fun _ o ho => ?_, fun h o ho hp => ?_⟩
    · exact ⟨o, ho, ⟨rfl, rfl, rfl⟩, rfl, rfl, rfl⟩
    · exact .inl ⟨o, ho, ⟨rfl, rfl, rfl⟩, rfl, rfl, rfl⟩
    · exact hc.settled.orderly.tidy.isPermanent_of_close ho hp
  exact ⟨.inl rfl, habides, rfl, rfl, fun _ _ => rfl, fun _ => rfl, fun hne => absurd rfl hne,
    rooted_of_kept fun _ _ ho => ho, noStrong_of_kept fun _ _ ho => ho, id, fun _ _ _ hs => hs⟩

theorem reply_ok {α : Type} {f : α → Reply} {o : Outcome α}
    (hok : Collector.reply f o = .ok (reply, d)) : ∃ answer, o = .ok (answer, d) := by
  cases o with
  | error e => cases hok
  | ok found =>
    cases hok
    exact ⟨_, rfl⟩

/-- No call but the collecting ones does anything to a purge. -/
theorem perform_respects (hc : c.Sound) (ha : op.Allowed c) (hop : op.collects = false)
    (hok : c.perform op = .ok (reply, d)) : op.Respects c d := by
  cases op with
  | registerClass spec =>
    obtain ⟨answer, hok⟩ := reply_ok hok
    exact registerClass_respects hc hok
  | createObject id name =>
    obtain ⟨answer, hok⟩ := reply_ok hok
    exact createObject_respects hc hok
  | closePermanentPool =>
    cases hok
    exact closePermanentPool_respects hc ha
  | setFlags h m =>
    cases hok
    exact setFlags_respects hc (stages_foreign ha) (ha _ (by decide))
  | clearFlags h m =>
    cases hok
    exact clearFlags_respects hc (stages_foreign ha) (ha _ (by decide)) fun _ => ha _ (by decide)
  | addRoot h =>
    cases hok
    exact addRoot_respects hc
  | removeRoot h =>
    cases hok
    exact clearFlags_respects hc (by decide) (by decide) fun hne => absurd rfl hne
  | kill h =>
    cases hok
    exact kill_respects hc
  | setReference h offset target =>
    obtain ⟨answer, hok⟩ := reply_ok hok
    refine writeReference_respects hc (fun cell p s hk hs => .inl ?_) hok
    rw [Cell.place_of_reference hk hs]
    rfl
  | pushReference h offset target =>
    obtain ⟨answer, hok⟩ := reply_ok hok
    exact writeReference_respects hc (fun cell p s hk hs => .inr (Cell.slot?_hold_array hk hs)) hok
  | putCell h offset cell =>
    obtain ⟨answer, hok⟩ := reply_ok hok
    obtain ⟨done, isThere, hrevised, -⟩ := putCell_ok hok
    refine revise_respects hc (fun o _ a s hs => ?_) hrevised
    by_cases ha : a.offset = offset
    · exact .inl ⟨rfl, ha⟩
    · refine .inr ?_
      rwa [Cell.slotAt?, Array.getElem?_setIfInBounds_ne (Ne.symm ha)]
  | revise h f =>
    obtain ⟨answer, hok⟩ := reply_ok hok
    refine revise_respects hc (fun o ho a s hs => ?_) hok
    by_cases hf : Cell.slotAt? (f o.cells) a = o.slot? a
    · exact .inr (hf.trans hs)
    · exact .inl ⟨rfl, o, ho, hf⟩
  | formCluster root members =>
    obtain ⟨answer, hok⟩ := reply_ok hok
    exact formCluster_respects hc hok
  | hold =>
    cases hok
    unfold hold
    split <;> exact respects_same hc rfl rfl rfl rfl fun _ => rfl
  | letGo =>
    cases hok
    exact respects_same hc rfl rfl rfl rfl fun _ => rfl
  | setGate isOpen =>
    cases hok
    exact respects_same hc rfl rfl rfl rfl fun _ => rfl
  | drain =>
    cases hok
    exact respects_same hc rfl rfl rfl rfl fun hne => absurd rfl hne
  | collect | tryCollect | purge | shutdown => cases hop

end Collector

end TracingHeap
