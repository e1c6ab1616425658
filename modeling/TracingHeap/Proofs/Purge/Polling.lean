import Mathlib.Algebra.GroupWithZero.Nat
import TracingHeap.Proofs.Outcome
import TracingHeap.Proofs.Purge.FirstPhase

namespace TracingHeap

/-- No object is waited for without end. -/
def Schema.Patient (s : Schema) : Prop := ∀ id f, (s.lifecycle id).readiness = some f →
  ∀ gateOpen o, ∃ n, f gateOpen o = some n

def Schema.due (s : Schema) (t : Table) (j : Journal) (h : Handle) : Option Nat :=
  (t.get? h).bind fun o => match (s.lifecycle o.classId).readiness with
    | none => some 0
    | some ready => j.wanted ready o

theorem Schema.due_congr {s : Schema} {t t' : Table} {j j' : Journal} {h : Handle}
    (hget : t'.get? h = t.get? h) (hgate : j'.gateOpen = j.gateOpen) :
    s.due t' j' h = s.due t j h := by
  unfold due Journal.wanted
  rw [hget, hgate]

theorem Schema.Patient.due {s : Schema} (hs : s.Patient) {t : Table} {h : Handle} {o : Object}
    (ho : t.get? h = some o) (j : Journal) : ∃ n, s.due t j h = some n := by
  unfold Schema.due
  rw [ho, Option.bind_some]
  cases hf : (s.lifecycle o.classId).readiness with
  | none => exact ⟨0, rfl⟩
  | some f => exact hs o.classId f hf j.gateOpen o

namespace Routing

variable {s : Schema} {r r' q : Routing} {o : Object} {g h : Handle} {i : Nat}

/-- Only what becomes of one parked object sets the two states apart. -/
structure Asks (s : Schema) (h : Handle) (r r' : Routing) : Prop where
  moves : Moves s r r'
  cursor : r'.cursor = r.cursor
  due : ∀ g, g ≠ h → s.due r'.table r'.journal g = s.due r.table r.journal g
  count : ∀ g, g ≠ h → r'.journal.pollCount g = r.journal.pollCount g

structure Stays (s : Schema) (h : Handle) (r r' : Routing) : Prop where
  parked : r'.parked = r.parked
  present : ∃ o, r.table.get? h = some o
  due : s.due r'.table r'.journal h = s.due r.table r.journal h
  count : r'.journal.pollCount h = r.journal.pollCount h + 1
  owed : ∀ n, s.due r.table r.journal h = some n → r'.journal.pollCount h < n

theorem wait_eq (s : Schema) (r : Routing) (h : Handle) :
    r.wait s h = (s.due r.table r.journal h).getD 0 := by
  unfold wait Schema.due
  cases r.table.get? h with
  | none => rfl
  | some o =>
    rw [Option.bind_some]
    dsimp only
    cases (s.lifecycle o.classId).readiness <;> rfl

theorem Asks.wait (ha : Asks s h r r') (hg : g ≠ h) : r'.wait s g = r.wait s g := by
  rw [wait_eq, wait_eq, ha.due g hg]

theorem Stays.wait (hs : Stays s h r r') : r'.wait s h = r.wait s h := by
  rw [wait_eq, wait_eq, hs.due]

theorem Stays.count_lt_wait (hs : Stays s h r r') (hp : s.Patient) :
    r'.journal.pollCount h < r.wait s h := by
  obtain ⟨o, ho⟩ := hs.present
  obtain ⟨n, hn⟩ := hp.due ho r.journal
  rw [wait_eq, hn]
  exact hs.owed n hn

/-- Only an object that is ready some time is ever ready. -/
theorem due_of_ready (ho : r.table.get? h = some o)
    (ha : r.ask o (s.lifecycle o.classId) = (true, q)) :
    ∃ n, s.due r.table r.journal h = some n := by
  unfold Schema.due
  rw [ho, Option.bind_some]
  unfold ask at ha
  cases hf : (s.lifecycle o.classId).readiness with
  | none => exact ⟨0, rfl⟩
  | some f =>
    rw [hf] at ha
    have hready : (r.journal.poll f o).1 = true := congrArg Prod.fst ha
    cases hw : r.journal.wanted f o with
    | some n => exact ⟨n, hw⟩
    | none =>
      unfold Journal.poll at hready
      simp [hw] at hready

/-- A parked object that is asked leaves the list or has to be asked again. -/
theorem retry_cases (hr : r.Stands) (hi : r.parked[i]? = some h) :
    Asks s h r (retry s r i).2 ∧
      ((retry s r i).1 = i ∧ (retry s r i).2.parked = swapRemove r.parked i ∧
          (∃ n, s.due r.table r.journal h = some n) ∨
        (retry s r i).1 = i + 1 ∧ Stays s h r (retry s r i).2) := by
  obtain ⟨o, ho, hu, hb, hf⟩ := hr.underway.waiting h (Array.mem_of_getElem? hi)
  have hh := hr.tidy.handle_eq ho
  subst hh
  cases ha : r.ask o (s.lifecycle o.classId) with
  | mk ready q =>
    obtain ⟨htable, hcursor, hparked, hgate⟩ := ask_frame ha
    unfold retry
    simp only [hi, ho, ha]
    cases ready with
    | true =>
      obtain ⟨hcursor', hparked', hgate', hpolls⟩ := finish_frame q o (s.lifecycle o.classId)
      refine ⟨⟨.single (.release hi ho hu hb hf ha), hcursor'.trans hcursor,
        fun g hg => ?_, fun g hg => ?_⟩,
        .inl ⟨rfl, congrArg (swapRemove · i) (hparked'.trans hparked), due_of_ready ho ha⟩⟩
      · apply Schema.due_congr _ (hgate'.trans hgate)
        change (finish _ _ _).table.get? g = _
        rw [table_finish hf, htable, Table.get?_setFlag ho, if_neg hg]
      · change (finish _ _ _).journal.pollCount g = _
        rw [Journal.pollCount, hpolls]
        exact pollCount_ask_of_ne ha hg
    | false =>
      obtain ⟨hcount, howed⟩ := pollCount_ask_waiting ha
      have hdue : ∀ g, s.due q.table q.journal g = s.due r.table r.journal g :=
        fun g => Schema.due_congr (congrArg (fun t => t.get? g) htable) hgate
      refine ⟨⟨.single (.wait hi ho hu hb hf ha), hcursor, fun g _ => hdue g,
        fun g hg => pollCount_ask_of_ne ha hg⟩,
        .inr ⟨rfl, hparked, ⟨o, ho⟩, hdue o.handle, hcount, fun n hn => ?_⟩⟩
      obtain ⟨f, hf⟩ := readiness_of_waiting ha
      simp only [Schema.due, ho, Option.bind_some, hf] at hn
      exact howed f n hf hn

def owed (s : Schema) (r : Routing) (h : Handle) : Nat := r.wait s h - r.journal.pollCount h

/-- The asking that is left, one more for every parked object. -/
def debt (s : Schema) (r : Routing) : Nat := (r.parked.toList.map fun h => r.owed s h + 1).sum

theorem parked_of_debt (hr : r.debt s = 0) : r.parked = #[] := by
  apply Array.eq_empty_iff_forall_not_mem.mpr
  intro h hh
  have hzero := List.sum_eq_zero_iff_forall_eq_nat.mp hr _
    (List.mem_map.mpr ⟨h, Array.mem_toList_iff.mpr hh, rfl⟩)
  exact Nat.succ_ne_zero _ hzero

theorem debt_congr {l : List Handle} (hwait : ∀ g ∈ l, r'.wait s g = r.wait s g)
    (hcount : ∀ g ∈ l, r'.journal.pollCount g = r.journal.pollCount g) :
    l.map (fun g => r'.owed s g + 1) = l.map fun g => r.owed s g + 1 := by
  apply List.map_congr_left
  intro g hg
  rw [owed, owed, hwait g hg, hcount g hg]

/-- Asking an object lessens the asking that is left. -/
theorem retry_debt (hs : s.Patient) (hr : r.Stands) (hi : r.parked[i]? = some h) :
    (retry s r i).2.debt s < r.debt s := by
  obtain ⟨hasks, hcases⟩ := retry_cases (s := s) hr hi
  have hperm := perm_swapRemove hi
  obtain ⟨hout, -⟩ := List.nodup_cons.mp (hperm.nodup_iff.mp hr.underway.distinct)
  have hne : ∀ g ∈ (swapRemove r.parked i).toList, g ≠ h := fun g hg he => hout (he ▸ hg)
  have hrest := debt_congr (s := s) (fun g hg => hasks.wait (hne g hg))
    (fun g hg => hasks.count g (hne g hg))
  have hbefore : r.debt s = r.owed s h + 1 +
      ((swapRemove r.parked i).toList.map fun g => r.owed s g + 1).sum := by
    rw [debt, (hperm.map _).sum_nat, List.map_cons, List.sum_cons]
  rcases hcases with ⟨-, hparked, -⟩ | ⟨-, hstays⟩
  · rw [debt, hparked, hrest, hbefore]
    omega
  · have howed := hstays.count_lt_wait hs
    have hless : (retry s r i).2.owed s h < r.owed s h := by
      rw [owed, owed, hstays.wait]
      have := hstays.count
      omega
    rw [debt, hstays.parked, (hperm.map _).sum_nat, List.map_cons, List.sum_cons, hrest, hbefore]
    omega

/-- Whatever the deadline, a pass is a sequence of moves, and it does not add to the asking that is
left. If there is an object to ask, it lessens it. -/
theorem retryFrom_moves (deadline : Option Deadline) (left : Nat) :
    ∀ (seen i : Nat) (r : Routing), r.Stands → left + i ≤ r.parked.size →
      Moves s r (retryFrom s deadline left seen i r).2 ∧
      (retryFrom s deadline left seen i r).2.cursor = r.cursor ∧
      (s.Patient → (retryFrom s deadline left seen i r).2.debt s + min left 1 ≤ r.debt s) := by
  induction left with
  | zero =>
    intro seen i r _ _
    exact ⟨.refl, rfl, fun _ => Nat.le_refl _⟩
  | succ left ih =>
    intro seen i r hr hsize
    obtain ⟨h, hi⟩ : ∃ h, r.parked[i]? = some h := ⟨_, Array.getElem?_eq_getElem (by omega)⟩
    obtain ⟨hasks, hcases⟩ := retry_cases (s := s) hr hi
    have hleft : left + (retry s r i).1 ≤ (retry s r i).2.parked.size := by
      rcases hcases with ⟨hindex, hparked, -⟩ | ⟨hindex, hstays⟩
      · have hlength := (perm_swapRemove hi).length_eq
        rw [List.length_cons, Array.length_toList, Array.length_toList] at hlength
        rw [hindex, hparked]
        omega
      · rw [hindex, hstays.parked]
        omega
    have hrest : ∀ p : Routing, Moves s r p → p.cursor = r.cursor →
        left + (retry s r i).1 ≤ p.parked.size → (s.Patient → p.debt s < r.debt s) →
        Moves s r (retryFrom s deadline left (seen + 1) (retry s r i).1 p).2 ∧
          (retryFrom s deadline left (seen + 1) (retry s r i).1 p).2.cursor = r.cursor ∧
          (s.Patient → (retryFrom s deadline left (seen + 1) (retry s r i).1 p).2.debt s +
            min (left + 1) 1 ≤ r.debt s) := by
      intro p hp hc hsize' hless
      obtain ⟨hmoves, hcursor, hdebt⟩ := ih (seen + 1) (retry s r i).1 p (hp.stands hr) hsize'
      refine ⟨hp.trans hmoves, hcursor.trans hc, fun hs => ?_⟩
      have h1 := hdebt hs
      have h2 := hless hs
      omega
    have hless : s.Patient → (retry s r i).2.debt s < r.debt s := fun hs => retry_debt hs hr hi
    rw [retryFrom]
    dsimp only
    split
    · split
      · refine ⟨.tail hasks.moves .look, hasks.cursor, fun hs => ?_⟩
        have hlooked : (retry s r i).2.debt s < r.debt s := hless hs
        change (retry s r i).2.debt s + _ ≤ _
        omega
      · exact hrest _ (.tail hasks.moves .look) hasks.cursor hleft hless
    · exact hrest _ hasks.moves hasks.cursor hleft hless

/-- The objects `after` have been asked once, those `before` have not: an object that stays is waited
for longer than it has been asked. -/
structure Passed (s : Schema) (before after : List Handle) (r r' : Routing) : Prop where
  parked : ∃ after', r'.parked.toList = before ++ after' ∧ ∀ h ∈ after', h ∈ after ∧
    r'.journal.pollCount h = r.journal.pollCount h + 1 ∧ r'.journal.pollCount h < r.wait s h ∧
    r'.wait s h = r.wait s h
  others : ∀ g, g ∉ after →
    r'.journal.pollCount g = r.journal.pollCount g ∧ r'.wait s g = r.wait s g

section

variable {before rest rest' : List Handle} (hasks : Asks s h r q) (hout : h ∉ rest)
include hasks hout

omit hout in
/-- What is said of the other objects since one was asked holds since before that. -/
theorem Asks.not_mem (hg : g ∉ h :: rest) (hothers : r'.journal.pollCount g =
    q.journal.pollCount g ∧ r'.wait s g = q.wait s g) :
    r'.journal.pollCount g = r.journal.pollCount g ∧ r'.wait s g = r.wait s g := by
  have hne : g ≠ h := fun he => hg (he ▸ List.mem_cons_self ..)
  exact ⟨hothers.1.trans (hasks.count g hne), hothers.2.trans (hasks.wait hne)⟩

theorem Asks.mem (hg : g ∈ rest) (hasked : r'.journal.pollCount g = q.journal.pollCount g + 1 ∧
    r'.journal.pollCount g < q.wait s g ∧ r'.wait s g = q.wait s g) :
    r'.journal.pollCount g = r.journal.pollCount g + 1 ∧
      r'.journal.pollCount g < r.wait s g ∧ r'.wait s g = r.wait s g := by
  have hne : g ≠ h := fun he => hout (he ▸ hg)
  rwa [hasks.count g hne, hasks.wait hne] at hasked

/-- The first object has left the list, and the others are asked. -/
theorem Passed.release (hperm : rest'.Perm rest) (hp : Passed s before rest' q r') :
    Passed s before (h :: rest) r r' := by
  obtain ⟨⟨after', hafter, hasked⟩, hothers⟩ := hp
  refine ⟨⟨after', hafter, fun g hg => ?_⟩, fun g hg => ?_⟩
  · obtain ⟨hm, hg'⟩ := hasked g hg
    have hmem := hperm.mem_iff.mp hm
    exact ⟨List.mem_cons_of_mem _ hmem, hasks.mem hout hmem hg'⟩
  · exact hasks.not_mem hg
      (hothers g fun hm => hg (List.mem_cons_of_mem _ (hperm.mem_iff.mp hm)))

/-- The first object stays, and the others are asked. -/
theorem Passed.stay (hs : s.Patient) (hstays : Stays s h r q)
    (hp : Passed s (before ++ [h]) rest q r') : Passed s before (h :: rest) r r' := by
  obtain ⟨⟨after', hafter, hasked⟩, hothers⟩ := hp
  refine ⟨⟨h :: after', by simp [hafter], fun g hg => ?_⟩, fun g hg => ?_⟩
  · rcases List.mem_cons.mp hg with he | hg
    · rw [he]
      obtain ⟨hcount, hwait⟩ := hothers h hout
      rw [hcount, hwait, hstays.wait]
      exact ⟨List.mem_cons_self .., hstays.count, hstays.count_lt_wait hs, rfl⟩
    · obtain ⟨hmem, hg'⟩ := hasked g hg
      exact ⟨List.mem_cons_of_mem _ hmem, hasks.mem hout hmem hg'⟩
  · exact hasks.not_mem hg (hothers g fun hm => hg (List.mem_cons_of_mem _ hm))

end

/-- Without a deadline a pass asks each object once. -/
theorem retryFrom_none (hs : s.Patient) (left : Nat) :
    ∀ (seen : Nat) (before after : List Handle) (r : Routing), r.Stands →
      r.parked.toList = before ++ after → after.length = left →
      ∃ r', retryFrom s none left seen before.length r = (false, r') ∧ Passed s before after r r' := by
  induction left with
  | zero =>
    intro seen before after r _ hparked hlength
    rw [List.length_eq_zero_iff] at hlength
    subst hlength
    exact ⟨r, rfl, ⟨[], hparked, nofun⟩, fun _ _ => ⟨rfl, rfl⟩⟩
  | succ left ih =>
    intro seen before after r hr hparked hlength
    obtain ⟨h, rest, rfl⟩ := List.exists_cons_of_length_eq_add_one hlength
    have hi : r.parked[before.length]? = some h := by
      rw [← Array.getElem?_toList, hparked]
      simp
    have hdistinct := hr.underway.distinct
    rw [hparked] at hdistinct
    have hout : h ∉ rest := (List.nodup_cons.mp (List.nodup_append.mp hdistinct).2.1).1
    have hlength' : rest.length = left := by simpa using hlength
    obtain ⟨hasked, hcases⟩ := retry_cases (s := s) hr hi
    have hrest : ∀ p : Routing, Asks s h r p → p.parked = (retry s r before.length).2.parked →
        (Stays s h r (retry s r before.length).2 → Stays s h r p) →
        ∃ r', retryFrom s none left (seen + 1) (retry s r before.length).1 p = (false, r') ∧
          Passed s before (h :: rest) r r' := by
      intro p hasks hpp hps
      have hstands := hasks.moves.stands hr
      rcases hcases with ⟨hindex, hswap, -⟩ | ⟨hindex, hstays⟩
      · obtain ⟨rest', hlist, hperm⟩ := toList_swapRemove hparked
        obtain ⟨r', hr', hpassed⟩ := ih (seen + 1) before rest' p hstands (by rw [hpp, hswap, hlist])
          (hperm.length_eq.trans hlength')
        exact ⟨r', by rw [hindex]; exact hr', hpassed.release hasks hout hperm⟩
      · have hlist : r.parked.toList = (before ++ [h]) ++ rest := by simp [hparked]
        obtain ⟨r', hr', hpassed⟩ := ih (seen + 1) (before ++ [h]) rest p hstands
          (by rw [hpp, hstays.parked, hlist]) hlength'
        rw [List.length_append, List.length_singleton] at hr'
        exact ⟨r', by rw [hindex]; exact hr', hpassed.stay hasks hout hs (hps hstays)⟩
    rw [retryFrom]
    dsimp only
    split
    · refine hrest _ ⟨.tail hasked.moves .look, hasked.cursor, hasked.due, hasked.count⟩ rfl ?_
      exact fun hstays => ⟨hstays.parked, hstays.present, hstays.due, hstays.count, hstays.owed⟩
    · exact hrest _ hasked rfl id

/-- Pass after pass is a sequence of moves, and in the end nothing is parked. -/
theorem retryAll_moves (n : Nat) : ∀ r : Routing, r.Stands → retryAll s n r = .ok r' →
    Moves s r r' ∧ r'.cursor = r.cursor ∧ r'.parked = #[] := by
  induction n with
  | zero =>
    intro r _ hok
    rw [retryAll] at hok
    split at hok
    · rename_i hempty
      cases hok
      exact ⟨.refl, rfl, Array.isEmpty_iff.mp hempty⟩
    · cases hok
  | succ n ih =>
    intro r hr hok
    rw [retryAll] at hok
    split at hok
    · rename_i hempty
      cases hok
      exact ⟨.refl, rfl, Array.isEmpty_iff.mp hempty⟩
    · obtain ⟨hmoves, hcursor, -⟩ := retryFrom_moves (s := s) none r.parked.size 0 0 r hr (by simp)
      obtain ⟨hmoves', hcursor', hempty⟩ := ih _ (hmoves.stands hr) hok
      exact ⟨hmoves.trans hmoves', hcursor'.trans hcursor, hempty⟩

/-- As many passes are enough as the parked objects are waited for. -/
theorem retryAll_ok (hs : s.Patient) (n : Nat) : ∀ r : Routing, r.Stands →
    (∀ h ∈ r.parked, r.wait s h ≤ r.journal.pollCount h + n) → (n = 0 → r.parked = #[]) →
    ∃ r', retryAll s n r = .ok r' := by
  induction n with
  | zero =>
    intro r _ _ hempty
    refine ⟨r, ?_⟩
    rw [retryAll, hempty rfl]
    rfl
  | succ n ih =>
    intro r hr hwait _
    rw [retryAll]
    split
    · exact ⟨r, rfl⟩
    · obtain ⟨r', hpass, ⟨after', hafter, hasked⟩, -⟩ :=
        retryFrom_none hs r.parked.size 0 [] r.parked.toList r hr (by simp) (by simp)
      obtain ⟨hmoves, -⟩ := retryFrom_moves (s := s) none r.parked.size 0 0 r hr (by simp)
      change retryFrom s none r.parked.size 0 0 r = (false, r') at hpass
      rw [hpass] at hmoves
      have hmem : ∀ h ∈ r'.parked, r.wait s h ≤ r'.journal.pollCount h + n ∧
          r'.journal.pollCount h < r.wait s h ∧ r'.wait s h = r.wait s h := by
        intro h hh
        rw [← Array.mem_toList_iff, hafter, List.nil_append] at hh
        obtain ⟨hm, hcount, hlt, hw⟩ := hasked h hh
        have hold := hwait h (Array.mem_toList_iff.mp hm)
        exact ⟨by omega, hlt, hw⟩
      rw [retryPass, hpass]
      apply ih r' (hmoves.stands hr)
      · intro h hh
        obtain ⟨hle, -, hw⟩ := hmem h hh
        omega
      · intro hn
        apply Array.eq_empty_iff_forall_not_mem.mpr
        intro h hh
        obtain ⟨hle, hlt, -⟩ := hmem h hh
        omega

/-- The patience of a routing is enough. -/
theorem wait_lt_patience (s : Schema) (r : Routing) (hh : h ∈ r.parked) :
    r.wait s h < r.patience s := by
  have hfold : ∀ (l : List Handle) (n : Nat), n ≤ l.foldl (fun n h => max n (r.wait s h)) n ∧
      ∀ h ∈ l, r.wait s h ≤ l.foldl (fun n h => max n (r.wait s h)) n := by
    intro l
    induction l with
    | nil => exact fun n => ⟨Nat.le_refl _, nofun⟩
    | cons g rest ih =>
      intro n
      obtain ⟨hle, hall⟩ := ih (max n (r.wait s g))
      refine ⟨Nat.le_trans (Nat.le_max_left _ _) hle, fun h hm => ?_⟩
      rcases List.mem_cons.mp hm with he | hm
      · rw [he]
        exact Nat.le_trans (Nat.le_max_right _ _) hle
      · exact hall h hm
  unfold patience
  rw [← Array.foldl_toList]
  exact Nat.lt_succ_of_le ((hfold _ 0).2 h (Array.mem_toList_iff.mpr hh))

/-- After the walk the parked objects are asked, without a deadline until none is left. -/
theorem settle_moves (hr : r.Stands) {deadline : Option Deadline} {late : Bool}
    (hok : r.settle s deadline = .ok (late, r')) : Moves s r r' ∧ r'.cursor = r.cursor ∧
      (deadline = none → late = false ∧ r'.parked = #[]) ∧
      (s.Patient → deadline ≠ none → r'.debt s + min r.parked.size 1 ≤ r.debt s) := by
  unfold settle at hok
  cases deadline with
  | some d =>
    obtain ⟨hmoves, hcursor, hdebt⟩ :=
      retryFrom_moves (s := s) (some d) r.parked.size 0 0 r hr (by simp)
    have hr' : (r.retryPass s (some d)).2 = r' := congrArg Prod.snd (Except.ok.inj hok)
    rw [← hr']
    exact ⟨hmoves, hcursor, nofun, fun hs _ => hdebt hs⟩
  | none =>
    obtain ⟨q, hq, hok⟩ := except_bind_ok hok
    cases hok
    obtain ⟨hmoves, hcursor, hempty⟩ := retryAll_moves _ r hr hq
    exact ⟨hmoves, hcursor, fun _ => ⟨rfl, hempty⟩, fun _ hd => absurd rfl hd⟩

/-- Asking comes to an end unless there is no deadline and an object is waited for without end. -/
theorem settle_ok (hr : r.Stands) {deadline : Option Deadline} (hs : deadline = none → s.Patient) :
    ∃ late r', r.settle s deadline = .ok (late, r') := by
  unfold settle
  cases deadline with
  | some d => exact ⟨_, _, rfl⟩
  | none =>
    obtain ⟨r', hr'⟩ := retryAll_ok (hs rfl) (r.patience s) r hr
      (fun h hh => Nat.le_trans (Nat.le_of_lt (wait_lt_patience s r hh)) (Nat.le_add_left _ _))
      (fun hn => absurd hn (Nat.succ_ne_zero _))
    rw [hr']
    exact ⟨false, r', rfl⟩

end Routing

end TracingHeap
