import TracingHeap.Proofs.Purge.Call

namespace TracingHeap

namespace Event

def object : Event → Handle
  | began _ _ h | polled _ _ h | finished _ _ h => h

def about (l : List Event) (h : Handle) : List Event := l.filter fun e => e.object == h

variable {l : List Event} {h : Handle}

@[simp] theorem about_append (l l' : List Event) (h : Handle) :
    about (l ++ l') h = about l h ++ about l' h := List.filter_append ..

theorem about_self (ha : ∀ e ∈ l, e.object = h) : about l h = l :=
  List.filter_eq_self.mpr fun e he => by simpa using ha e he

theorem about_other {g : Handle} (ha : ∀ e ∈ l, e.object = g) (hne : h ≠ g) : about l h = [] := by
  refine List.filter_eq_nil_iff.mpr fun e he => ?_
  rw [ha e he]
  simpa using Ne.symm hne

end Event

namespace Lifecycle

variable {l : Lifecycle} {o o' : Object} {ready : Bool} {e : Event}

theorem object_beginning (he : e ∈ l.beginning o) : e.object = o.handle := by
  unfold beginning at he
  split at he
  · rw [List.mem_singleton.mp he]
    rfl
  · cases he

theorem object_answer (he : e ∈ l.answer o ready) : e.object = o.handle := by
  unfold answer at he
  split at he
  · rw [List.mem_singleton.mp he]
    rfl
  · cases he

theorem object_ending (he : e ∈ l.ending o) : e.object = o.handle := by
  unfold ending at he
  split at he
  · rw [List.mem_singleton.mp he]
    rfl
  · cases he

def waits (l : Lifecycle) (o : Object) : Nat → List Event
  | 0 => []
  | n + 1 => l.answer o false ++ l.waits o n

/-- What is told of an object that has or has not begun and finished to be destroyed, the latest event
first. -/
inductive Story (l : Lifecycle) (o : Object) : (begun finished : Bool) → List Event → Prop where
  | untouched : Story l o false false []
  | begun (n : Nat) : Story l o true false (l.waits o n ++ l.beginning o)
  | finished (n : Nat) :
      Story l o true true (l.ending o ++ (l.answer o true ++ (l.waits o n ++ l.beginning o)))

theorem waits_same (hs : o.Same o') (l : Lifecycle) (n : Nat) : l.waits o' n = l.waits o n := by
  induction n with
  | zero => rfl
  | succ n ih =>
    rw [waits, waits, ih, answer, answer, hs.name, hs.handle]

/-- The story is that of the object under its handle and its name. -/
theorem Story.same {begun finished : Bool} {log : List Event} (hs : o.Same o')
    (hl : Story l o begun finished log) : Story l o' begun finished log := by
  have hbeginning : l.beginning o' = l.beginning o := by
    rw [beginning, beginning, hs.name, hs.handle]
  have hending : l.ending o' = l.ending o := by
    rw [ending, ending, hs.name, hs.handle]
  have hanswer : l.answer o' true = l.answer o true := by
    rw [answer, answer, hs.name, hs.handle]
  cases hl with
  | untouched => exact .untouched
  | begun n =>
    rw [← hbeginning, ← waits_same hs]
    exact .begun n
  | finished n =>
    rw [← hbeginning, ← hending, ← hanswer, ← waits_same hs]
    exact .finished n

end Lifecycle

open Lifecycle (Story)

/-- What `news` tells of a step from one table to another: every object has gone on with its story, and
the news are about flagged objects outside the permanent pool only. -/
structure Tells (s : Schema) (t : Table) (news : List Event) (t' : Table) : Prop where
  quiet : ∀ h, (∀ o, t.get? h = some o → o.isUnreachable = true → t.isPermanent h = true) →
    Event.about news h = []
  kept : ∀ h o, t.get? h = some o → ∃ o', t'.get? h = some o' ∧ o.Wanes o' ∧ ∀ old,
    Story (s.lifecycle o.classId) o (o.has .beginDestroyed) (o.has .finishDestroyed) old →
      Story (s.lifecycle o.classId) o (o'.has .beginDestroyed) (o'.has .finishDestroyed)
        (Event.about news h ++ old)
  gone : ∀ h, t.get? h = none → t'.get? h = none
  boundary : t'.boundary = t.boundary

namespace Tells

variable {s : Schema} {t t' t'' : Table} {news news' : List Event} {o o' : Object}

theorem refl (t : Table) : Tells s t [] t :=
  ⟨fun _ _ => rfl, fun _ o ho => ⟨o, ho, .refl o, fun _ h => h⟩, fun _ h => h, rfl⟩

theorem back {h : Handle} (a : Tells s t news t') (ho : t'.get? h = some o') :
    ∃ o, t.get? h = some o ∧ o.Wanes o' := by
  cases hx : t.get? h with
  | none =>
    rw [a.gone h hx] at ho
    cases ho
  | some o =>
    obtain ⟨p, hp, hw, -⟩ := a.kept h o hx
    rw [ho] at hp
    cases hp
    exact ⟨o, rfl, hw⟩

theorem trans (a : Tells s t news t') (b : Tells s t' news' t'') :
    Tells s t (news' ++ news) t'' := by
  refine ⟨fun h hq => ?_, fun h o ho => ?_, fun h hn => b.gone h (a.gone h hn),
    b.boundary.trans a.boundary⟩
  · rw [Event.about_append, a.quiet h hq, b.quiet h fun o' ho' hu => ?_]
    · rfl
    · obtain ⟨o, ho, hw⟩ := a.back ho'
      rw [Table.isPermanent, a.boundary]
      exact hq o ho (hw.isUnreachable.symm.trans hu)
  · obtain ⟨p, hp, hw, hstory⟩ := a.kept h o ho
    obtain ⟨q, hq, hw', hstory'⟩ := b.kept h p hp
    refine ⟨q, hq, hw.trans hw', fun old hold => ?_⟩
    rw [Event.about_append, List.append_assoc, ← hw.classId]
    have hmiddle := hstory old hold
    rw [← hw.classId] at hmiddle
    have hsame : p.Same o := ⟨hw.handle.symm, hw.classId.symm, hw.name.symm⟩
    exact (hstory' _ (hmiddle.same hw.toSame)).same hsame

/-- News of one flagged object outside the permanent pool. -/
theorem of_one (ho : t.get? o.handle = some o) (hu : o.isUnreachable = true)
    (hp : t.isPermanent o.handle = false)
    (hget : ∀ g, t'.get? g = if g = o.handle then some o' else t.get? g)
    (hbound : t'.boundary = t.boundary) (hw : o.Wanes o') (hnews : ∀ e ∈ news, e.object = o.handle)
    (hstory : ∀ old,
      Story (s.lifecycle o.classId) o (o.has .beginDestroyed) (o.has .finishDestroyed) old →
        Story (s.lifecycle o.classId) o (o'.has .beginDestroyed) (o'.has .finishDestroyed)
          (news ++ old)) : Tells s t news t' := by
  refine ⟨fun h hq => ?_, fun h p hp' => ?_, fun h hn => ?_, hbound⟩
  · refine Event.about_other hnews fun he => ?_
    rw [he] at hq
    rw [hq o ho hu] at hp
    cases hp
  · by_cases he : h = o.handle
    · subst he
      rw [ho] at hp'
      cases hp'
      refine ⟨o', by rw [hget, if_pos rfl], hw, ?_⟩
      rw [Event.about_self hnews]
      exact hstory
    · refine ⟨p, by rw [hget, if_neg he, hp'], .refl p, ?_⟩
      rw [Event.about_other hnews he]
      exact fun _ hold => hold
  · have hne : h ≠ o.handle := by
      intro he
      rw [he, ho] at hn
      cases hn
    rw [hget, if_neg hne, hn]

end Tells

namespace Routing

variable {s : Schema} {r r' : Routing} {o : Object}

/-- A parked object lies outside the permanent pool, and so does the one at the cursor. -/
theorem Outside.collectable (hr : r.Outside)
    (ho : o.handle.index = r.cursor ∨ o.handle ∈ r.parked) : r.table.isPermanent o.handle = false := by
  rcases ho with hi | hm
  · have := hr.cursor
    simp only [Table.isPermanent, decide_eq_false_iff_not]
    omega
  · exact hr.parked _ hm

/-- Every move goes on with the story of the object that it deals with. -/
theorem Move.tells (m : Move s r r') (hout : r.Outside) : ∃ news,
    r'.journal.events = news ++ r.journal.events ∧ Tells s r.table news r'.table := by
  cases m with
  | pass | look => exact ⟨[], rfl, .refl _⟩
  | @wait r' o i hi ho hu hb hf ha =>
    refine ⟨_, events_ask ha, ?_⟩
    rw [(ask_frame ha).1]
    refine .of_one ho hu (hout.collectable (.inr (Array.mem_of_getElem? hi)))
      (fun g => ?_) rfl (.refl o) (fun e he => Lifecycle.object_answer he) fun old hold => ?_
    · split
      · rename_i he
        rw [he, ho]
      · rfl
    · rw [hb, hf] at hold ⊢
      cases hold with
      | begun n =>
        rw [← List.append_assoc]
        exact .begun (n + 1)
  | @park q o ho hi hu hb hf ha =>
    refine ⟨(s.lifecycle o.classId).answer o false ++ (s.lifecycle o.classId).beginning o, ?_, ?_⟩
    · change q.journal.events = _
      rw [events_ask ha, events_begin hb, List.append_assoc]
    · change Tells s r.table _ q.table
      rw [(ask_frame ha).1, table_begin hb]
      refine .of_one ho hu (hout.collectable (.inl hi)) (Table.get?_setFlag ho _) rfl
        (.set o (.inl rfl)) (fun e he => ?_) fun old hold => ?_
      · exact (List.mem_append.mp he).elim Lifecycle.object_answer Lifecycle.object_beginning
      · rw [hb, hf] at hold
        cases hold
        simp only [Object.has_set, hb, hf, List.append_nil]
        have hstory := Lifecycle.Story.begun (l := s.lifecycle o.classId) (o := o) 1
        rwa [Lifecycle.waits, Lifecycle.waits, List.append_nil] at hstory
  | @destroy q o ho hi hu hb hf ha =>
    refine ⟨(s.lifecycle o.classId).ending o ++
      ((s.lifecycle o.classId).answer o true ++ (s.lifecycle o.classId).beginning o), ?_, ?_⟩
    · change (finish _ _ _).journal.events = _
      rw [events_finish hf, events_ask ha, events_begin hb]
      simp only [List.append_assoc]
    · change Tells s r.table _ (finish _ _ _).table
      rw [table_finish hf, (ask_frame ha).1, table_begin hb]
      refine .of_one ho hu (hout.collectable (.inl hi)) (Table.get?_setFlag_setFlag ho _ _) rfl
        ((Object.Wanes.set o (.inl rfl)).trans (.set _ (.inr rfl))) (fun e he => ?_)
        fun old hold => ?_
      · rcases List.mem_append.mp he with he | he
        · exact Lifecycle.object_ending he
        · exact (List.mem_append.mp he).elim Lifecycle.object_answer Lifecycle.object_beginning
      · rw [hb, hf] at hold
        cases hold
        have hflags : ((o.set .beginDestroyed).set .finishDestroyed).has .beginDestroyed = true ∧
            ((o.set .beginDestroyed).set .finishDestroyed).has .finishDestroyed = true := by simp
        rw [hflags.1, hflags.2, List.append_nil]
        exact .finished 0
  | @release q o i hi ho hu hb hf ha =>
    refine ⟨(s.lifecycle o.classId).ending o ++ (s.lifecycle o.classId).answer o true, ?_, ?_⟩
    · change (finish _ _ _).journal.events = _
      rw [events_finish hf, events_ask ha, List.append_assoc]
    · change Tells s r.table _ (finish _ _ _).table
      rw [table_finish hf, (ask_frame ha).1]
      refine .of_one ho hu (hout.collectable (.inr (Array.mem_of_getElem? hi)))
        (Table.get?_setFlag ho _) rfl (.set o (.inr rfl)) (fun e he => ?_) fun old hold => ?_
      · exact (List.mem_append.mp he).elim Lifecycle.object_ending Lifecycle.object_answer
      · rw [hb, hf] at hold
        cases hold with
        | begun n =>
          have hflags : (o.set .finishDestroyed).has .beginDestroyed = true ∧
              (o.set .finishDestroyed).has .finishDestroyed = true := by simp [hb]
          rw [hflags.1, hflags.2, List.append_assoc]
          exact .finished n

theorem Moves.tells (m : Moves s r r') (hout : r.Outside) : ∃ news,
    r'.journal.events = news ++ r.journal.events ∧ Tells s r.table news r'.table := by
  induction m with
  | refl => exact ⟨[], rfl, .refl _⟩
  | tail m hm ih =>
    obtain ⟨news, hevents, htells⟩ := ih
    obtain ⟨news', hevents', htells'⟩ := hm.tells (Moves.outside m hout)
    refine ⟨news' ++ news, ?_, htells.trans htells'⟩
    rw [hevents', hevents, List.append_assoc]

end Routing

/-- The first phase of a purge goes on with the stories of the objects that it destroys. -/
theorem PurgeState.Routes.tells {s : Schema} {p q : PurgeState} (hq : PurgeState.Routes s p q)
    (hout : p.purge.routed = false → p.routing.Outside) : ∃ news,
      q.journal.events = news ++ p.journal.events ∧ Tells s p.table news q.table := by
  rcases hq.cases with ⟨-, rfl⟩ | ⟨hrouted, r, hmoves, hrests⟩
  · exact ⟨[], rfl, .refl _⟩
  · rw [hrests.journal, hrests.table]
    exact Routing.Moves.tells hmoves (hout hrouted)

end TracingHeap
