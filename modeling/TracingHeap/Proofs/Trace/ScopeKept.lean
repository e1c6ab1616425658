import TracingHeap.Proofs.Outcome
import TracingHeap.Proofs.Trace.Scope
import TracingHeap.Marking.Edge

namespace TracingHeap

theorem Table.has_clearFlag_self (t : Table) (h : Handle) (f : Flag) :
    (t.clearFlag h f).has h f = false := by
  have hget := get?_modify_self t h (·.clear f)
  cases ho : t.get? h with
  | none => simp [has, clearFlag, hget, ho]
  | some o => simp [has, clearFlag, hget, ho]

namespace Marking

variable {w : Scope} {late : Handle → Prop} {m m' m'' : Marking} {g h : Handle} {o : Object}

/-- A task goes on from one state to a later one within the bounds. What it hands on to the next wave
is what it has claimed and is no root. -/
structure Strikes (w : Scope) (late : Handle → Prop) (m m' : Marking) : Prop where
  table : m.table.Struck w late m'.table
  reached : ∃ new, m'.output.reached.toList = m.output.reached.toList ++ new ∧ new.Nodup ∧
    ∀ g, g ∈ new ↔ m.table.Claims m'.table g
  weak : ∀ x, x ∈ m'.output.weak → x ∈ m.output.weak ∨ w.soft x
  scanned : m'.output.scanned = m.output.scanned

namespace Strikes

theorem of_table (ht : m.table.Struck w late m'.table) (ho : m'.output = m.output)
    (hnone : ∀ g, ¬ m.table.Claims m'.table g) : m.Strikes w late m' := by
  refine ⟨ht, ⟨[], by simp [ho], .nil, fun g => by simp [hnone g]⟩, fun x hx => .inl (ho ▸ hx), ?_⟩
  rw [ho]

theorem refl (m : Marking) : m.Strikes w late m :=
  of_table (.refl _) rfl fun _ => Table.Struck.not_claims_refl

theorem trans (a : m.Strikes w late m') (b : m'.Strikes w late m'') : m.Strikes w late m'' := by
  refine ⟨a.table.trans b.table, ?_, fun x hx => ?_, b.scanned.trans a.scanned⟩
  · obtain ⟨first, hfirst, hnodup, hmem⟩ := a.reached
    obtain ⟨second, hsecond, hnodup', hmem'⟩ := b.reached
    refine ⟨first ++ second, by rw [hsecond, hfirst, List.append_assoc], ?_, fun g => ?_⟩
    · refine List.nodup_append.mpr ⟨hnodup, hnodup', ?_⟩
      rintro g hg _ hg' rfl
      have hawake := ((hmem g).mp hg).2.1
      rw [((hmem' g).mp hg').1] at hawake
      cases hawake
    · rw [List.mem_append, hmem, hmem', a.table.claims_trans b.table]
  · rcases b.weak x hx with hx | hx
    · exact a.weak x hx
    · exact .inr hx

/-- A scratch list was borrowed for the work and given back. -/
theorem lent (a : Strikes w late { m with pool := m.pool.acquire } m') :
    m.Strikes w late { m' with pool := m'.pool.release } :=
  ⟨a.table, a.reached, a.weak, a.scanned⟩

/-- What is said to have been done late has been done. -/
theorem settle (a : m.Strikes w (fun x => x = h ∨ late x) m')
    (hn : m'.table.has h .noStrongReference = false) : m.Strikes w late m' :=
  ⟨a.table.settle hn, a.reached, a.weak, a.scanned⟩

/-- A change of one object that is not claimed by it. -/
theorem modify {f : Object → Object} (hf : ∀ o, (f o).handle = o.handle)
    (hs : ∀ o, m.table.get? h = some o → o.Struck w late h (f o))
    (hnone : ∀ o, m.table.get? h = some o → (f o).isUnreachable = o.isUnreachable ∨
      o.has .clusterRoot = true) :
    m.Strikes w late { m with table := m.table.modify h f } := by
  have hstruck : m.table.Struck w late (m.table.modify h f) := .modify hf hs
  refine of_table hstruck rfl ?_
  rintro g ⟨hu, hu', hr⟩
  obtain ⟨o, ho⟩ : ∃ o, m.table.get? g = some o := by
    cases ho : m.table.get? g with
    | none => simp [Table.isUnreachable, Table.has, ho] at hu
    | some o => exact ⟨o, rfl⟩
  have hroot : o.has .clusterRoot = false := by
    rw [← Table.has_of_get? ho, ← hr]
    exact (hstruck.has (by decide) g).symm
  have hget := Table.get?_modify m.table h g f
  rw [ho] at hget
  split at hget
  · rename_i he
    subst he
    rcases hnone o ho with hsame | hroot'
    · rw [Table.isUnreachable_of_get? hget, hsame, ← Table.isUnreachable_of_get? ho, hu] at hu'
      cases hu'
    · rw [hroot] at hroot'
      cases hroot'
  · rw [Table.isUnreachable_of_get? hget, ← Table.isUnreachable_of_get? ho, hu] at hu'
    cases hu'

theorem setInCluster (ho : m.table.get? h = some o) (hown : o.owner.isSome = true)
    (hhit : w.hit h) : m.Strikes w late (m.setFlag h .reachableInCluster) := by
  refine modify (f := (·.set .reachableInCluster)) (fun _ => rfl) (fun p hp => ?_) fun p _ => .inl ?_
  · rw [ho] at hp
    cases hp
    exact .setInCluster hhit hown
  · simp [Object.isUnreachable]

theorem clearNoStrong (hu : m.table.isUnreachable h = false) :
    m.Strikes w late (m.clearFlag h .noStrongReference) := by
  refine modify (f := (·.clear .noStrongReference)) (fun _ => rfl) (fun p hp => ?_)
    fun p _ => .inl ?_
  · rw [Table.isUnreachable_of_get? hp] at hu
    exact .clearNoStrong hu
  · simp [Object.isUnreachable]

theorem clearSite {site : Site} (hcut : w.cut site) (hslot : (m.table.slotAt? site).isSome) :
    m.Strikes w late { m with table := m.table.clearSite site } := by
  refine modify (f := (·.clearSlot site.address)) (fun _ => rfl) (fun p hp => ?_) fun p _ => .inl rfl
  have hsome : (p.slot? site.address).isSome := by
    rw [← Table.slotAt?_eq hp]
    exact hslot
  exact .clearSlot hcut hsome

/-- The claim of a root. -/
theorem unflagRoot (ho : m.table.get? h = some o) (hroot : o.has .clusterRoot = true)
    (hhit : w.hit h) :
    m.Strikes w (fun x => x = h ∨ late x) (m.clearFlag h .unreachable) := by
  refine modify (f := (·.clear .unreachable)) (fun _ => rfl) (fun p _ => .unflag p hhit) fun p hp => ?_
  rw [ho] at hp
  cases hp
  exact .inr hroot

/-- The claim of an object that joins the next wave. -/
theorem unflagReach (ho : m.table.get? h = some o) (hu : o.isUnreachable = true)
    (hroot : o.has .clusterRoot = false) (hhit : w.hit h) :
    m.Strikes w (fun x => x = h ∨ late x) ((m.clearFlag h .unreachable).reach h) := by
  have hstruck : m.table.Struck w (fun x => x = h ∨ late x) (m.table.clearFlag h .unreachable) :=
    .modify (fun _ => rfl) fun p _ => .unflag p hhit
  refine ⟨hstruck, ⟨[h], ?_, List.nodup_singleton h, fun g => ?_⟩, fun _ => .inl, rfl⟩
  · exact Array.toList_push
  rw [List.mem_singleton]
  have hget := Table.get?_modify m.table h g (·.clear .unreachable)
  change _ ↔ m.table.Claims (m.table.modify h (·.clear .unreachable)) g
  constructor
  · rintro rfl
    rw [if_pos rfl, ho] at hget
    refine ⟨by rw [Table.isUnreachable_of_get? ho, hu], ?_, ?_⟩
    · rw [Table.isUnreachable_of_get? hget]
      simp [Object.isUnreachable]
    · rw [Table.has_of_get? hget]
      simp [hroot]
  · rintro ⟨hflagged, hawake, -⟩
    by_contra hne
    rw [if_neg hne] at hget
    rw [Table.isUnreachable, Table.has, hget] at hawake
    rw [Table.isUnreachable, Table.has, hawake] at hflagged
    cases hflagged

/-- The flag that was late is cleared. -/
theorem catchUp (a : m.Strikes w (fun x => x = h ∨ late x) m')
    (hu : m'.table.isUnreachable h = false) :
    m.Strikes w late (m'.clearFlag h .noStrongReference) :=
  (a.trans (clearNoStrong hu)).settle (Table.has_clearFlag_self m'.table h _)

/-- The claim of a root by its cluster, or by one that references it. -/
theorem claimRoot (ho : m.table.get? h = some o) (hroot : o.has .clusterRoot = true)
    (hhit : w.hit h) : m.Strikes w late (m.claim h) :=
  (unflagRoot ho hroot hhit).catchUp (Table.has_clearFlag_self m.table h _)

/-- The claim of an object that a cluster keeps. -/
theorem claimReach (ho : m.table.get? h = some o) (hu : o.isUnreachable = true)
    (hroot : o.has .clusterRoot = false) (hhit : w.hit h) :
    m.Strikes w late ((m.claim h).reach h) :=
  (unflagReach ho hu hroot hhit).catchUp (Table.has_clearFlag_self m.table h _)

end Strikes

end Marking

/-- The scope holds with a root what its cluster keeps, and with a member the root if members keep
their clusters. -/
structure Tracer.Admits (tr : Tracer) (w : Scope) (t : Table) : Prop where
  keeper : tr.memberKeepsCluster = true → ∀ h o r, t.get? h = some o → o.owner = some r → w.hit h →
    t.isUnreachable r = true → w.hit r
  owners : ∀ h o r, t.get? h = some o → o.owner = some r → t.has r .clusterRoot = true
  mutables : ∀ c ∈ tr.clusters.list, w.hit c.root → ∀ g ∈ c.mutables, t.isPermanent g = false →
    w.hit g
  referenced : ∀ c ∈ tr.clusters.list, w.hit c.root → ∀ r ∈ c.referenced,
    t.isUnreachable r = true → w.hit r ∧ t.has r .clusterRoot = true

structure Scope.Grants (w : Scope) (t : Table) (site : Site) (k : Strength) : Prop where
  strong : ∀ g, t.slotAt? site = some (some g) → k = .strong → t.isPermanent g = false →
    t.has g .pendingKill = false → w.hit g
  cut : ∀ g, t.slotAt? site = some (some g) → ¬ t.Tenable g → w.cut site
  soft : ∀ g, t.slotAt? site = some (some g) → k = .weak → w.soft site

structure Tracer.Licenses (tr : Tracer) (w : Scope) (t : Table) (h : Handle) : Prop where
  hit : w.hit h
  slots : ∀ o a k, t.get? h = some o → o.has .clusterRoot = false → o.owner = none →
    tr.schema.Reports o a k → w.Grants t ⟨h, a⟩ k

section

variable {tr : Tracer} {w : Scope} {late : Handle → Prop} {t t' : Table} {site : Site} {k : Strength}

theorem Tracer.Admits.struck (a : tr.Admits w t) (s : t.Struck w late t') : tr.Admits w t' := by
  refine ⟨fun hk h o' r ho' hr hh hu => ?_, fun h o' r ho' hr => ?_, fun c hc hh g hg hp => ?_,
    fun c hc hh r hr hu => ?_⟩
  · obtain ⟨o, ho, hs⟩ := s.objects.back ho'
    exact a.keeper hk h o r ho (hs.owner ▸ hr) hh (s.isUnreachable hu)
  · obtain ⟨o, ho, hs⟩ := s.objects.back ho'
    rw [s.has (by decide)]
    exact a.owners h o r ho (hs.owner ▸ hr)
  · rw [s.isPermanent] at hp
    exact a.mutables c hc hh g hg hp
  · rw [s.has (by decide)]
    exact a.referenced c hc hh r hr (s.isUnreachable hu)

theorem Scope.Grants.struck (g : w.Grants t site k) (s : t.Struck w late t') :
    w.Grants t' site k := by
  refine ⟨fun x hx hk hp hkill => ?_, fun x hx hten => ?_, fun x hx hk => ?_⟩
  · rw [s.isPermanent] at hp
    rw [s.has (by decide)] at hkill
    exact g.strong x (s.slotAt?_back hx) hk hp hkill
  · rw [s.tenable] at hten
    exact g.cut x (s.slotAt?_back hx) hten
  · exact g.soft x (s.slotAt?_back hx) hk

end

namespace Tracer

variable {tr : Tracer} {w : Scope} {m : Marking} {g h : Handle} {o : Object}
  {expand : Handle → Marking → Except Fault Marking} (late : Handle → Prop)

abbrev StrikesAll (tr : Tracer) (w : Scope)
    (expand : Handle → Marking → Except Fault Marking) : Prop :=
  ∀ late r m, tr.Admits w m.table → w.hit r →
    Ends (fun _ => False) (expand r m) (m.Strikes w late)

theorem reachMember_strikes (hexp : tr.StrikesAll w expand) (a : tr.Admits w m.table)
    (hown : ∀ o, m.table.get? h = some o → o.owner.isSome = true) (hhit : w.hit h) :
    Ends (fun _ => False) (tr.reachMember expand h m) (m.Strikes w late) := by
  unfold reachMember
  split
  · exact .refl m
  · rename_i o ho
    split
    · exact .refl m
    · have hset : m.Strikes w late (m.setFlag h .reachableInCluster) :=
        .setInCluster ho (hown o ho) hhit
      have a' := a.struck hset.table
      dsimp only
      split
      · rename_i hk
        split
        · exact hset
        · rename_i r hr
          split
          · exact id
          · rename_i root hroot
            split
            · rename_i hu
              have hu' : (m.setFlag h .reachableInCluster).table.isUnreachable r = true := by
                rw [Table.isUnreachable_of_get? hroot, hu]
              have hhit' := a.keeper hk h o r ho hr hhit (hset.table.isUnreachable hu')
              have hflag := a.owners h o r ho hr
              rw [← hset.table.has (by decide), Table.has_of_get? hroot] at hflag
              have hclaim : (m.setFlag h .reachableInCluster).Strikes w late _ :=
                .claimRoot hroot hflag hhit'
              refine (hexp late r _ (a'.struck hclaim.table) hhit').mono fun m' hm' => ?_
              exact hset.trans (hclaim.trans hm')
            · exact hset
      · exact hset

theorem reachMutable_strikes (hexp : tr.StrikesAll w expand) (cluster : Handle)
    {pending : List Handle} (a : tr.Admits w m.table) (hpend : ∀ r ∈ pending, w.hit r)
    (hhit : m.table.isPermanent h = false → w.hit h) :
    Ends (fun _ => False) (tr.reachMutable expand cluster (pending, m) h) fun found =>
      m.Strikes w late found.2 ∧ ∀ r ∈ found.1, w.hit r := by
  unfold reachMutable
  dsimp only
  split
  · exact ⟨.refl m, hpend⟩
  · rename_i hp
    rw [Bool.not_eq_true] at hp
    split
    · exact id
    · rename_i o ho
      split
      · rename_i hu
        split
        · rename_i hroot
          refine ⟨.claimRoot ho hroot (hhit hp), fun r hr => ?_⟩
          rcases List.mem_cons.mp hr with he | hr
          · exact he ▸ hhit hp
          · exact hpend r hr
        · rename_i hroot
          rw [Bool.not_eq_true] at hroot
          exact ⟨Marking.Strikes.claimReach ho hu hroot (hhit hp), hpend⟩
      · split
        · rename_i hm
          rw [Bool.and_eq_true] at hm
          refine (reachMember_strikes late hexp a (fun p hp' => ?_) (hhit hp)).bind fun m' _ hm' => ?_
          · rw [ho] at hp'
            cases hp'
            exact hm.1
          · exact ⟨hm', hpend⟩
        · exact ⟨.refl m, hpend⟩

theorem reachCluster_strikes (cluster : Handle) {pending : List Handle}
    (hpend : ∀ r ∈ pending, w.hit r)
    (hhit : m.table.isUnreachable h = true → w.hit h ∧ m.table.has h .clusterRoot = true) :
    Ends (fun _ => False) (tr.reachCluster cluster (pending, m) h) fun found =>
      m.Strikes w late found.2 ∧ ∀ r ∈ found.1, w.hit r := by
  unfold reachCluster
  dsimp only
  split
  · exact id
  · rename_i root hroot
    split
    · rename_i hu
      have hboth := hhit (by rw [Table.isUnreachable_of_get? hroot, hu])
      obtain ⟨hh, hflag⟩ := hboth
      rw [Table.has_of_get? hroot] at hflag
      refine ⟨.claimRoot hroot hflag hh, fun r hr => ?_⟩
      rcases List.mem_cons.mp hr with he | hr
      · exact he ▸ hh
      · exact hpend r hr
    · exact ⟨.refl m, hpend⟩

/-- Going through a list of a cluster. -/
theorem fold_strikes {f : List Handle × Marking → Handle → Except Fault (List Handle × Marking)}
    {l : List Handle} (hf : ∀ h ∈ l, ∀ pending (m : Marking), tr.Admits w m.table →
      (∀ r ∈ pending, w.hit r) → Ends (fun _ => False) (f (pending, m) h) fun found =>
        m.Strikes w late found.2 ∧ ∀ r ∈ found.1, w.hit r)
    (a : tr.Admits w m.table) {pending : List Handle} (hpend : ∀ r ∈ pending, w.hit r) :
    Ends (fun _ => False) (l.foldlM f (pending, m)) fun found =>
      m.Strikes w late found.2 ∧ ∀ r ∈ found.1, w.hit r := by
  refine Ends.foldlM_mem (fun h hh found hI => ?_) ⟨.refl m, hpend⟩
  obtain ⟨hs, hroots⟩ := hI
  exact (hf h hh found.1 found.2 (a.struck hs.table) hroots).mono fun next hnext =>
    ⟨hs.trans hnext.1, hnext.2⟩

/-- Marking what the pending clusters keep. The induction follows the calls. -/
theorem expandPending_strikes (fuel : Nat) (late : Handle → Prop) (pending : List Handle)
    (m : Marking) (a : tr.Admits w m.table) (hpend : ∀ r ∈ pending, w.hit r) :
    Ends (fun _ => False) (tr.expandPending fuel pending m) (m.Strikes w late) := by
  induction fuel, pending, m using expandPending.induct tr generalizing late with
  | case1 fuel m =>
    rw [expandPending]
    exact .refl m
  | case2 current pending m =>
    rw [expandPending]
    exact id
  | case3 fuel current pending m c hc ihOwner ihRest =>
    rw [expandPending, hc]
    obtain ⟨hmem, hroot⟩ := Clusters.mem_of_get? hc
    have hhit : w.hit c.root := hroot ▸ hpend current (List.mem_cons_self ..)
    have hrest : ∀ r ∈ pending, w.hit r := fun r hr => hpend r (List.mem_cons_of_mem _ hr)
    have hexp : tr.StrikesAll w fun owner m => do
        let m ← tr.expandPending fuel [owner] { m with pool := m.pool.acquire }
        return { m with pool := m.pool.release } := by
      intro late r m a hr
      refine (ihOwner r m late a ?_).bind fun m' _ hm' => hm'.lent
      intro x hx
      exact List.mem_singleton.mp hx ▸ hr
    have hmutables := fold_strikes late (fun h hh pending m a hp =>
      reachMutable_strikes late hexp current a hp (a.mutables c hmem hhit h hh)) a hrest
    refine hmutables.bind fun found _ hfound => ?_
    have hreferenced := fold_strikes late (f := tr.reachCluster current)
      (fun h hh pending m a hp =>
        reachCluster_strikes late current hp (a.referenced c hmem hhit h hh))
      (a.struck hfound.1.table) hfound.2
    refine hreferenced.bind fun next _ hnext => ?_
    have hall := hfound.1.trans hnext.1
    exact (ihRest next.1 next.2 late (a.struck hall.table) hnext.2).mono fun m' hm' =>
      hall.trans hm'
  | case4 fuel current pending m hnone =>
    rw [expandPending, Option.eq_none_iff_forall_ne_some.mpr hnone]
    exact id

theorem expand_strikes : tr.StrikesAll w tr.expand := by
  intro late r m a hr
  unfold expand
  refine (expandPending_strikes _ late [r] { m with pool := m.pool.acquire } a ?_).bind
    fun m' _ hm' => hm'.lent
  intro x hx
  exact List.mem_singleton.mp hx ▸ hr

/-- Following a strong reference to an object that the scope holds. -/
theorem followStrong_strikes (a : tr.Admits w m.table) (ho : m.table.get? o.handle = some o)
    (hhit : w.hit o.handle) : Ends (fun _ => False) (tr.followStrong o m) (m.Strikes w late) := by
  -- the flag goes last, and only where it was met; it is the one that may be late
  have tail : ∀ m' : Marking, m.Strikes w (fun x => x = o.handle ∨ late x) m' →
      m'.table.isUnreachable o.handle = false → m.Strikes w late
        (if o.has .noStrongReference then m'.clearFlag o.handle .noStrongReference else m') := by
    intro m' hm' hu
    split
    · exact hm'.catchUp hu
    · rename_i hn
      rw [Bool.not_eq_true] at hn
      obtain ⟨o', ho', hs⟩ := hm'.table.objects.kept _ o ho
      refine hm'.settle ?_
      rw [Table.has_of_get? ho']
      cases hn' : o'.has .noStrongReference with
      | false => rfl
      | true => rw [hs.fewer hn'] at hn; cases hn
  have awake : ∀ {m' m'' : Marking}, m'.Strikes w (fun x => x = o.handle ∨ late x) m'' →
      m'.table.isUnreachable o.handle = false → m''.table.isUnreachable o.handle = false := by
    intro m' m'' hm' hu
    cases hu' : m''.table.isUnreachable o.handle with
    | false => rfl
    | true => rw [hm'.table.isUnreachable hu'] at hu; cases hu
  unfold followStrong
  dsimp only
  split
  · rename_i hu
    have hawake : (m.clearFlag o.handle .unreachable).table.isUnreachable o.handle = false :=
      Table.has_clearFlag_self m.table o.handle _
    split
    · exact id
    · split
      · rename_i hroot
        have hclaim : m.Strikes w (fun x => x = o.handle ∨ late x) _ :=
          .unflagRoot ho hroot hhit
        have hexpanded := expand_strikes (fun x => x = o.handle ∨ late x) o.handle _
          (a.struck hclaim.table) hhit
        refine hexpanded.bind fun m' _ hm' => ?_
        exact tail m' (hclaim.trans hm') (awake hm' hawake)
      · rename_i hroot
        rw [Bool.not_eq_true] at hroot
        exact tail _ (.unflagReach ho hu hroot hhit) hawake
  · rename_i hu
    rw [Bool.not_eq_true] at hu
    have hawake : m.table.isUnreachable o.handle = false := by
      rw [Table.isUnreachable_of_get? ho, hu]
    split
    · rename_i hm
      rw [Bool.and_eq_true] at hm
      have hown : ∀ p, m.table.get? o.handle = some p → p.owner.isSome = true := by
        intro p hp
        rw [ho] at hp
        cases hp
        exact hm.1
      have hreach := reachMember_strikes (fun x => x = o.handle ∨ late x) expand_strikes a hown hhit
      exact hreach.bind fun m' _ hm' => tail m' hm' (awake hm' hawake)
    · exact tail m (.refl m) hawake

/-- Looking at one slot of an object. -/
theorem visit_strikes (ht : m.table.Tidy) (a : tr.Admits w m.table) {v : Visit}
    (hg : w.Grants m.table ⟨o.handle, v.address⟩ v.strength) :
    Ends (fun _ => False) (tr.visit o m v) (m.Strikes w late) := by
  unfold visit
  dsimp only
  split
  · rename_i slot hslot
    cases slot with
    | none =>
      simp only [follow]
      exact .refl m
    | some g =>
      simp only [follow]
      split
      · exact .refl m
      · rename_i hp
        rw [Bool.not_eq_true] at hp
        split
        · exact id
        · rename_i target htarget
          have hh := ht.handle_eq htarget
          split
          · rename_i hk
            refine .clearSite (hg.cut g hslot ?_) (by rw [hslot]; rfl)
            unfold Table.Tenable
            rw [hp, Table.has_of_get? htarget, hk]
            simp
          · rename_i hk
            rw [Bool.not_eq_true] at hk
            cases hs : v.strength with
            | weak =>
              dsimp only
              split
              · refine ⟨.refl _, ⟨[], by simp [Marking.revisit], .nil, ?_⟩, fun x hx => ?_, rfl⟩
                · exact fun x => by simp [Table.Struck.not_claims_refl, Marking.revisit]
                · rcases Array.mem_push.mp hx with hx | rfl
                  · exact .inl hx
                  · exact .inr (hg.soft g hslot hs)
              · exact .refl m
            | strong =>
              have hhit := hg.strong g hslot hs hp (by rw [Table.has_of_get? htarget, hk])
              rw [← hh] at htarget hhit
              have hfollow := followStrong_strikes late a htarget hhit
              rw [bind_assoc]
              exact hfollow.bind fun m' _ hm' => hm'
  · exact .refl m

/-- Looking at the slots of an object, one after the other. -/
theorem visits_strikes (ht : m.table.Tidy) (a : tr.Admits w m.table) {walk : Walk}
    (hg : ∀ v ∈ walk.visits, w.Grants m.table ⟨o.handle, v.address⟩ v.strength) :
    Ends (fun _ => False) (walk.foldM (tr.visit o) m) (m.Strikes w late) := by
  have hfold : Ends (fun _ => False) (walk.visits.foldlM (tr.visit o) m) (m.Strikes w late) :=
    Ends.foldlM_mem (fun v hv m' hs => by
      have hgrant := (hg v hv).struck hs.table
      exact (visit_strikes late (hs.table.objects.tidy ht) (a.struck hs.table) hgrant).mono
        fun m'' hm'' => hs.trans hm'') (.refl m)
  unfold Walk.foldM
  refine hfold.bind fun m' _ hm' => ?_
  split
  · exact id
  · exact hm'

/-- Looking at an object of a wave. -/
theorem process_strikes (ht : m.table.Tidy) (a : tr.Admits w m.table)
    (hl : tr.Licenses w m.table h) :
    Ends (fun _ => False) (tr.process m h) (m.countScanned.Strikes w late) := by
  unfold process
  split
  · exact id
  · rename_i o ho
    have hh := ht.handle_eq ho
    dsimp only
    split
    · exact expand_strikes late h m.countScanned a hl.hit
    · rename_i hroot
      rw [Bool.not_eq_true] at hroot
      split
      · rename_i hown
        refine reachMember_strikes late expand_strikes a (fun p hp => ?_) hl.hit
        have hp' : m.table.get? h = some p := hp
        rw [ho] at hp'
        cases hp'
        exact hown
      · rename_i hown
        rw [Option.not_isSome_iff_eq_none] at hown
        cases hwalk : tr.schema.walk o with
        | error e => exact id
        | ok walk =>
          have hgrants : ∀ v ∈ walk.visits, w.Grants m.table ⟨o.handle, v.address⟩ v.strength := by
            intro v hv
            rw [hh]
            exact hl.slots o v.address v.strength ho hroot hown (Schema.reports_of_visit hwalk hv)
          exact visits_strikes late ht (m := m.countScanned) a hgrants

end Tracer

end TracingHeap
