import TracingHeap.Proofs.Purge.Protocol
import TracingHeap.Proofs.Collection.Survivors

namespace TracingHeap

namespace Table

variable {t t' : Table} {h : Handle}

theorem Tidy.mem_pooledFrom (ht : t.Tidy) {c : Nat} : h ∈ t.pooledFrom c ↔
    (∃ o, t.get? h = some o ∧ o.isUnreachable = true) ∧ c ≤ h.index ∧ t.isPermanent h = true := by
  rw [pooledFrom, List.mem_filter, ht.mem_flaggedFrom, and_assoc]

/-- The pool ends where the collectable slots begin. -/
theorem Tidy.pooledFrom_boundary (ht : t.Tidy) : t.pooledFrom t.boundary = [] := by
  refine List.eq_nil_iff_forall_not_mem.mpr fun h hm => ?_
  obtain ⟨-, hle, hp⟩ := ht.mem_pooledFrom.mp hm
  exact Nat.not_lt_of_le hle (of_decide_eq_true hp)

theorem pooledFrom_capacity {c : Nat} (hc : t.capacity ≤ c) : t.pooledFrom c = [] := by
  rw [pooledFrom, flaggedFrom_capacity hc]
  rfl

/-- Where no new objects are found, the old ones are found again or lost. -/
theorem Tidy.length_lost (ht : t.Tidy) (ht' : t'.Tidy)
    (hback : ∀ h, t'.contains h = true → t.contains h = true) :
    (t.lost t').length + t'.objects.length = t.objects.length := by
  have hfound : ((t.objects.map (·.handle)).filter (t'.contains ·)).Perm
      (t'.objects.map (·.handle)) := by
    refine (List.perm_ext_iff_of_nodup (ht.nodup_map_objects.filter _) ht'.nodup_map_objects).mpr
      fun h => ?_
    rw [List.mem_filter, ht.mem_map_objects, ht'.mem_map_objects, contains_iff]
    exact ⟨And.right, fun hh => ⟨contains_iff.mp (hback h (contains_iff.mpr hh)), hh⟩⟩
  have hsplit := List.length_eq_length_filter_add (l := t.objects.map (·.handle)) (t'.contains ·)
  rw [hfound.length_eq, List.length_map, List.length_map] at hsplit
  rw [hsplit, Nat.add_comm]
  rfl

/-- The notes that a purge makes take no object in and free none. -/
theorem Annotates.objects {among : Handle → Prop} (a : Annotates among t t') :
    t'.objects.length = t.objects.length ∧ (t.Counted → t'.Counted) ∧
      ∀ g, t'.contains g = t.contains g := by
  induction a with
  | refl => exact ⟨rfl, id, fun _ => rfl⟩
  | tail _ hn ih =>
    obtain ⟨h, o, f, -, -, -, -, rfl⟩ := hn
    obtain ⟨hlen, hcounted, hsame⟩ := ih
    exact ⟨(length_objects_modify _ h _).trans hlen, fun hc => (hcounted hc).modify h _,
      fun g => (contains_setFlag _ h g f).trans (hsame g)⟩

end Table

namespace PurgeState

variable {s : Schema} {p q f : PurgeState} {progress : Progress}

/-- The flagged objects of the permanent pool that a purge has still to come past. There are some only
after the pool was closed over what a sweep had left. -/
def stranded (p : PurgeState) : List Handle :=
  if p.purge.required then p.table.pooledFrom p.ahead else []

/-- From one state of a purge to a later one `n` objects are counted: those that are freed, and those of
the pool that the sweep has come past. -/
structure Tallies (p : PurgeState) (n : Nat) (f : PurgeState) : Prop where
  account : n + f.stranded.length + f.table.objects.length =
    p.stranded.length + p.table.objects.length
  stranded : ∀ h ∈ f.stranded, h ∈ p.stranded
  counted : p.table.Counted → f.table.Counted
  back : ∀ h, f.table.contains h = true → p.table.contains h = true

theorem Tallies.refl (p : PurgeState) : p.Tallies 0 p :=
  ⟨by rw [Nat.zero_add], fun _ => id, id, fun _ => id⟩

theorem Tallies.trans {n m : Nat} (a : p.Tallies n q) (b : q.Tallies m f) : p.Tallies (n + m) f :=
  ⟨by have := a.account; have := b.account; omega, fun h hh => a.stranded h (b.stranded h hh),
    b.counted ∘ a.counted, fun h hh => a.back h (b.back h hh)⟩

/-- The first phase frees nothing, and leaves the second to come past the same objects of the pool. -/
theorem Routes.tallies (hq : Routes s p q) (hp : p.purge.Stands p.table)
    (hreq : p.purge.required = true) : p.Tallies 0 q := by
  have htidy := (hq.stands hp hreq).tidy
  have hstranded : ∀ {f : PurgeState}, f.purge.required = true →
      f.stranded = f.table.pooledFrom f.ahead := fun hf => if_pos hf
  have hboth : q.stranded = p.stranded ∧ q.table.objects.length = p.table.objects.length ∧
      (p.table.Counted → q.table.Counted) ∧ ∀ g, q.table.contains g = p.table.contains g := by
    rw [hstranded hreq, hstranded hq.required]
    rcases hq.cases with ⟨hrouted, rfl⟩ | ⟨hrouted, r, hmoves, hrests⟩
    · rw [ahead_place]
      exact ⟨rfl, rfl, id, fun _ => rfl⟩
    · have hnotes := Routing.Moves.annotates hmoves
      have hahead : p.ahead = p.table.boundary := by simp [ahead, hrouted]
      rw [hrests.ahead, htidy.pooledFrom_boundary, hahead, hp.tidy.pooledFrom_boundary, hrests.table]
      exact ⟨rfl, hnotes.objects⟩
  obtain ⟨hsame, hlen, hcounted, hcontains⟩ := hboth
  exact ⟨by rw [hsame, hlen, Nat.zero_add], fun h hh => hsame ▸ hh, hcounted,
    fun h hh => hcontains h ▸ hh⟩

/-- Where the second phase goes on, it has what is stranded in front of it. -/
theorem sweeping_stranded (hreq : q.purge.required = true) (hrouted : q.purge.routed = true)
    (looks : Nat) : q.table.pooledFrom (q.sweeping looks).cursor = q.stranded := by
  have hstart : (q.sweeping looks).cursor = q.ahead := (if_pos hrouted).symm
  rw [stranded, if_pos hreq, hstart]

theorem Sweeps.account {looks : Nat} {ended : Bool} {w : Sweep} (hw : Sweeps looks q f ended w)
    (hreq : q.purge.required = true) (hrouted : q.purge.routed = true) :
    w.freed + (w.table.pooledFrom w.cursor).length + w.table.objects.length =
      q.stranded.length + q.table.objects.length := by
  rw [hw.clears.accounted, ← sweeping_stranded hreq hrouted looks]
  exact congrArg (· + q.table.objects.length) (Nat.zero_add _)

theorem Sweeps.back {looks : Nat} {ended : Bool} {w : Sweep} (hw : Sweeps looks q f ended w) (h : Handle)
    (hh : f.table.contains h = true) : q.table.contains h = true := by
  rw [Table.contains_iff, hw.table] at hh
  obtain ⟨o, ho⟩ := hh
  rw [hw.clears.get] at ho
  split at ho
  · cases ho
  · exact Table.contains_iff.mpr ⟨o, ho⟩

/-- A second phase that is cut off. -/
theorem Sweeps.tallies {looks : Nat} {w : Sweep} (hw : Sweeps looks q f false w)
    (hq : q.purge.Stands q.table) (hreq : q.purge.required = true)
    (hrouted : q.purge.routed = true) : q.Tallies w.freed f := by
  have hfreq : f.purge.required = true := by
    rw [hw.purge]
    exact (q.purge.placeCursor_frame q.table).1.trans hreq
  have hf : f.stranded = w.table.pooledFrom w.cursor := by
    rw [stranded, if_pos hfreq, hw.ahead hrouted, hw.table]
  refine ⟨?_, fun h hh => ?_, fun hc => hw.table ▸ hw.clears.counted hc, hw.back⟩
  · rw [hf, hw.table]
    exact hw.account hreq hrouted
  · -- the sweep has left the pool alone, and only moved on
    rw [hf, hw.clears.tidy.mem_pooledFrom] at hh
    obtain ⟨⟨o, ho, hu⟩, hle, hperm⟩ := hh
    rw [← sweeping_stranded hreq hrouted looks, hq.tidy.mem_pooledFrom]
    rw [hw.clears.get] at ho
    split at ho
    · cases ho
    · rw [Table.isPermanent, hw.clears.boundary] at hperm
      exact ⟨⟨o, ho, hu⟩, Nat.le_trans hw.clears.le hle, hperm⟩

/-- A second phase that comes to its end leaves nothing in front of it. -/
theorem Sweeps.tallies_end {looks : Nat} {w : Sweep} (hw : Sweeps looks q f true w)
    (hreq : q.purge.required = true) (hrouted : q.purge.routed = true) :
    q.Tallies w.freed { f with purge := f.purge.reset } := by
  have hcap : w.table.capacity ≤ w.cursor := hw.clears.capacity ▸ hw.exhausted rfl
  have haccount := hw.account hreq hrouted
  rw [Table.pooledFrom_capacity hcap, ← hw.table] at haccount
  exact ⟨haccount, fun _ hh => absurd hh List.not_mem_nil,
    fun hc => hw.table ▸ hw.clears.counted hc, hw.back⟩

/-- Every object that a call counts is freed, or one of the pool that the sweep has come past. -/
theorem Ran.tallies (hr : Ran s p progress f) (hp : p.purge.Stands p.table) :
    p.Tallies progress.purged f := by
  cases hr with
  | idle => exact .refl p
  | routed hreq hq => exact hq.tallies hp hreq
  | @swept q _ w _ hreq hq hrouted hw =>
    have hall := (hq.tallies hp hreq).trans (hw.tallies (hq.stands hp hreq) hq.required hrouted)
    rwa [Nat.zero_add] at hall
  | @done q _ w _ hreq hq hrouted hw =>
    have hall := (hq.tallies hp hreq).trans (hw.tallies_end hq.required hrouted)
    rwa [Nat.zero_add] at hall

end PurgeState

namespace Collector

variable {b c d e : Collector} {n m : Nat} {op : Operation} {reply : Reply} {keep : Flags}
  {stats : Statistics}

def stranded (c : Collector) : List Handle := c.pending.stranded

theorem stranded_of_idle (hc : c.purge.required = false) : c.stranded = [] :=
  if_neg (by simp [pending, hc])

theorem Standing.runPurge_tallies (hs : c.Standing) {deadline : Option Deadline}
    {progress : Progress} (hok : c.runPurge deadline = .ok (progress, d)) :
    c.pending.Tallies progress.purged d.pending := by
  obtain ⟨p, hrun, rfl⟩ := runPurge_ok hok
  exact (PurgeState.ran_of_run (p := c.pending) hs hrun).1.tallies hs

theorem Standing.finishPurge_tallies (hs : c.Standing) (hok : c.finishPurge = .ok (n, d)) :
    c.pending.Tallies n d.pending := by
  obtain ⟨progress, hrun, rfl⟩ := finishPurge_ok hok
  exact hs.runPurge_tallies hrun

/-- Finding the dead frees nothing, and the purge that it requests has nothing of the pool in front of
it. -/
theorem Idle.condemn_tallies (hb : b.Idle) (hok : b.condemn keep = .ok (stats, d)) :
    b.pending.Tallies 0 d.pending := by
  have hd := hb.requested hok
  have hnone : d.stranded = [] := by
    have hahead : d.pending.ahead = d.table.boundary := if_neg (by simp [pending, hd.routed])
    rw [stranded, PurgeState.stranded, hahead]
    exact (if_pos hd.required).trans hd.standing.tidy.pooledFrom_boundary
  have hobjects : d.table.objects.length = b.table.objects.length ∧
      (b.table.Counted → d.table.Counted) ∧
      ∀ h, d.table.contains h = true → b.table.contains h = true := by
    obtain ⟨_, _, _, _, _, a, -⟩ := search_of_condemn hb.sound hok
    have ht := hb.standing.tidy
    have ht₁ := a.thins.tidy ht
    have hframe := a.frame.trans a.retained.frame
    refine ⟨(Table.Evolves.length_objects a.nulls.drops ht₁ a.nulls.size).trans
      (a.thins.length_objects ht hframe.size), fun hc => (hc.evolves ht a.thins hframe).evolves ht₁
        a.nulls.drops a.nulls.toFrame, fun h hh => ?_⟩
    obtain ⟨o', ho'⟩ := Table.contains_iff.mp hh
    obtain ⟨o₁, ho₁, -⟩ := a.nulls.drops.back ho'
    obtain ⟨o, ho, -⟩ := a.thins.back ho₁
    exact Table.contains_iff.mpr ⟨o, ho⟩
  obtain ⟨hlen, hcounted, hback⟩ := hobjects
  have hnone' : d.pending.stranded = [] := hnone
  refine ⟨?_, fun h hh => ?_, hcounted, hback⟩
  · rw [hnone', show b.pending.stranded = [] from stranded_of_idle hb.idle, Nat.zero_add]
    exact congrArg (_ + ·) hlen
  · rw [hnone'] at hh
    cases hh

theorem collect_tallies (hc : c.Sound) (hs : c.Standing) {full : Bool}
    (hok : c.collect keep full = .ok (stats, d)) : c.pending.Tallies stats.purged d.pending := by
  obtain ⟨n, b, hfinish, found, m, hcondemn, freed, e, hfreed, hstats, rfl⟩ := collect_ok hok
  obtain ⟨-, hb⟩ := hs.first_phase hc hfinish
  have hs' : ({ c with misses := 0 } : Collector).Standing := hs
  have hlast : m.pending.Tallies freed e.pending := by
    cases full with
    | true => exact (hb.requested hcondemn).standing.finishPurge_tallies hfreed
    | false =>
      cases hfreed
      exact .refl _
  have hpurged : stats.purged = n + freed := by rw [hstats]
  rw [hpurged]
  exact ((hs'.finishPurge_tallies hfinish).trans (hb.condemn_tallies hcondemn)).trans hlast

/-- What a call does that may collect. -/
theorem tallies_of_collects (hc : c.Sound) (hs : c.Standing) (hop : op.collects = true)
    (hok : c.perform op = .ok (reply, d)) : ∃ n, c.pending.Tallies n d.pending := by
  obtain ⟨lock, misses, hcases⟩ := perform_collects hop hok
  have hc' := hc.relocked lock misses
  have hs' : (c.relocked lock misses).Standing := hs
  rcases hcases with rfl | ⟨keep, full, stats, hd⟩ | ⟨deadline, progress, hd⟩ | ⟨-, n, e, hd, rfl⟩
  · exact ⟨0, .refl _⟩
  · exact ⟨_, collect_tallies (c := c.relocked lock misses) hc' hs' hd⟩
  · exact ⟨_, hs'.runPurge_tallies hd⟩
  · have hpurge := hs'.finishPurge_tallies hd
    exact ⟨n, hpurge⟩

/-- The number of objects is kept up by every call. -/
theorem counted_perform (hc : c.Sound) (hs : c.Standing) (ha : op.Allowed c) (hn : c.table.Counted)
    (hok : c.perform op = .ok (reply, d)) : d.table.Counted := by
  cases hop : op.collects with
  | true =>
    obtain ⟨n, a⟩ := tallies_of_collects hc hs hop hok
    exact a.counted hn
  | false => exact (perform_respects hc ha hop hok).counted hn

/-- What is stranded was stranded before, unless the call has closed the pool. -/
theorem stranded_perform (hc : c.Sound) (hs : c.Standing) (ha : op.Allowed c)
    (hne : op ≠ .closePermanentPool) (hok : c.perform op = .ok (reply, d)) {h : Handle}
    (hh : h ∈ d.stranded) : h ∈ c.stranded := by
  cases hop : op.collects with
  | true =>
    obtain ⟨n, a⟩ := tallies_of_collects hc hs hop hok
    exact a.stranded h hh
  | false =>
    have hr := perform_respects hc ha hop hok
    cases hreq : c.purge.required with
    | false =>
      rw [stranded_of_idle (hr.purge ▸ hreq)] at hh
      cases hh
    | true =>
      have hahead : d.pending.ahead = c.pending.ahead := by
        unfold PurgeState.ahead pending Purge.placeCursor
        dsimp only
        rw [hr.purge, hr.boundary hne]
      have hin : ∀ e : Collector, e.purge.required = true →
          e.stranded = e.table.pooledFrom e.pending.ahead := fun _ he => if_pos he
      rw [hin d (hr.purge ▸ hreq), hr.abides.tidy.mem_pooledFrom, hahead] at hh
      obtain ⟨⟨o', ho', hu⟩, hle, hp⟩ := hh
      obtain ⟨o, ho, hsame⟩ := hr.abides.back_of_has ho' hu
      rw [Table.isPermanent, hr.boundary hne] at hp
      rw [hin c hreq, hc.settled.orderly.tidy.mem_pooledFrom]
      exact ⟨⟨o, ho, hsame.unreachable ▸ hu⟩, hle, hp⟩

end Collector

/-- After every history of calls the number of objects is right. -/
theorem Reached.counted {c : Collector} (hr : Reached c) : c.table.Counted := by
  induction hr with
  | start => exact .empty
  | step hc ha hd ih => exact Collector.counted_perform hc.sound hc.standing ha ih hd

def Reply.freed? : Reply → Option Nat
  | .collected stats => some stats.purged
  | .purged progress => some progress.purged
  | _ => none

/-- A call that reports how many objects it has freed keeps the account. -/
theorem Reached.tallies {c d : Collector} (hr : Reached c) {op : Operation} {reply : Reply} {n : Nat}
    (hok : c.perform op = .ok (reply, d)) (hn : reply.freed? = some n) :
    c.pending.Tallies n d.pending := by
  have htold := Collector.told_of_perform hok
  cases reply with
  | collected stats =>
    cases hn
    obtain ⟨lock, misses, keep, full, hcollect⟩ := htold
    exact Collector.collect_tallies (c := c.relocked lock misses) (hr.sound.relocked lock misses)
      hr.standing hcollect
  | purged progress =>
    cases hn
    obtain ⟨deadline, hpurge⟩ := htold
    exact hr.standing.runPurge_tallies hpurge
  | _ => cases hn

/-- The account of a call that reports how many objects it has freed. It counts the objects that are not
there any more, and with them those that it found stranded and has come past: objects that were closed
into the permanent pool when a sweep was cut off before them. No other call leaves objects stranded. -/
theorem Reached.purges_account {c d : Collector} (hr : Reached c) {op : Operation}
    (ha : op.Allowed c) {reply : Reply} (hok : c.perform op = .ok (reply, d)) :
    (∀ n, reply.freed? = some n →
      n + d.stranded.length = (c.table.lost d.table).length + c.stranded.length ∧
        (c.table.lost d.table).length + d.objectCount = c.objectCount) ∧
      (op ≠ .closePermanentPool → ∀ h ∈ d.stranded, h ∈ c.stranded) := by
  have hd : Reached d := hr.step ha hok
  refine ⟨fun n hn => ?_, fun hne h =>
    Collector.stranded_perform hr.sound hr.standing ha hne hok⟩
  have a := hr.tallies hok hn
  have hlost := hr.sound.settled.orderly.tidy.length_lost hd.sound.settled.orderly.tidy a.back
  have haccount : n + d.stranded.length + d.table.objects.length =
      c.stranded.length + c.table.objects.length := a.account
  have hc : c.objectCount = c.table.objects.length := hr.counted
  have hd : d.objectCount = d.table.objects.length := hd.counted
  omega

open Collector Sample in
/-- Two of three objects are freed by a purge, and counted. -/
theorem purges_account_two : ∃ (c d : Collector) (progress : Progress), Reached c ∧
    c.perform (.purge none) = .ok (.purged progress, d) ∧ progress.purged = 2 ∧
    (∀ n, (Reply.purged progress).freed? = some n →
      n + d.stranded.length = (c.table.lost d.table).length + c.stranded.length ∧
        (c.table.lost d.table).length + d.objectCount = c.objectCount) ∧
      (Operation.purge none ≠ .closePermanentPool → ∀ h ∈ d.stranded, h ∈ c.stranded) := by
  have hrun : runs .serial node (nodes 3 ++ [.addRoot one, .collect .empty false]) (fun c =>
      match c.runPurge none with
      | .ok (progress, _) => decide (progress.purged = 2)
      | .error _ => false) = true := by
    decide +kernel
  obtain ⟨c, hr, hc⟩ := Reached.of_runs node_honest (by decide +kernel) hrun
  split at hc
  · rename_i progress d hpurge
    have hok : c.perform (.purge none) = .ok (.purged progress, d) := by
      simp only [perform, hpurge]
      rfl
    have hallowed : (Operation.purge none).Allowed c := trivial
    exact ⟨c, d, progress, hr, hok, of_decide_eq_true hc, hr.purges_account hallowed hok⟩
  · cases hc

namespace Sample

def leaf : ClassSpec where
  name := "Leaf"
  superclass := none
  fields := .nil
  collector := none
  lifecycle := .silent

theorem leaf_honest : leaf.Honest := ⟨trivial, fun _ hf => nomatch hf⟩

/-- A clock that lets the first phase of a purge of 101 objects pass, and stops the sweep at its first
look. -/
def sweepCut : Deadline := ⟨fun n => decide (11 ≤ n)⟩

end Sample

open Collector Sample in
/-- A sweep is cut off one object before its end, and the pool is closed over that object. The next call
reports it as freed, and it is still there. -/
theorem counted_yet_kept : ∃ (c d : Collector) (progress : Progress), Reached c ∧
    c.perform (.purge none) = .ok (.purged progress, d) ∧ progress.purged = 1 ∧
      c.table.lost d.table = [] := by
  have hrun : runs .serial leaf (nodes 101 ++ [.collect .empty false, .purge (some sweepCut)])
      (fun b => decide (b.table.slots.size ≤ 102) &&
        match b.closePermanentPool.runPurge none with
        | .ok (progress, d) => decide (progress.purged = 1) &&
          (b.closePermanentPool.table.lost d.table).isEmpty
        | .error _ => false) = true := by
    decide +kernel
  obtain ⟨b, hr, hb⟩ := Reached.of_runs leaf_honest (by decide +kernel) hrun
  obtain ⟨hsize, hb⟩ := Bool.and_eq_true_iff.mp hb
  have hclose : Operation.closePermanentPool.Allowed b := by
    intro o ho
    have hlt : b.table.slots.size ≤ 4294967295 :=
      Nat.le_trans (of_decide_eq_true hsize) (by decide)
    rw [Table.slot?, Array.getElem?_eq_none hlt] at ho
    cases ho
  have hc : Reached b.closePermanentPool := hr.step hclose rfl
  split at hb
  · rename_i progress d hpurge
    obtain ⟨hpurged, hlost⟩ := Bool.and_eq_true_iff.mp hb
    have hok : b.closePermanentPool.perform (.purge none) = .ok (.purged progress, d) := by
      simp only [perform, hpurge]
      rfl
    exact ⟨_, d, progress, hc, hok, of_decide_eq_true hpurged, List.isEmpty_iff.mp hlost⟩
  · cases hb

end TracingHeap
