import TracingHeap.Collector.Collection
import TracingHeap.Proofs.Cluster.Dissolution
import TracingHeap.Proofs.Trace.Termination

namespace TracingHeap

def Walk.Fatal (w : Walk) : Prop := ∀ f, w.fault = some f → f.Broken

namespace Walk.Fatal

theorem mk (visits : List Visit) : Walk.Fatal ⟨visits, none⟩ := by
  intro f hf
  cases hf

theorem mismatch (o : Object) (offset : Nat) (expected : String) :
    (TracingHeap.mismatch o offset expected).Fatal := by
  intro f hf
  cases hf
  trivial

theorem andThen {a b : Walk} (ha : a.Fatal) (hb : b.Fatal) : (a.andThen b).Fatal := by
  unfold Walk.andThen
  split
  · rename_i f hf
    intro g hg
    cases hg
    exact ha f hf
  · exact hb

theorem each {f : Nat → Walk} (hf : ∀ i, (f i).Fatal) (count : Nat) :
    ∀ i, (Walk.each f i count).Fatal := by
  induction count with
  | zero => exact fun _ => mk []
  | succ n ih =>
    intro i
    rw [Walk.each]
    have hfirst := hf i
    split
    · rename_i he
      rwa [he] at hfirst
    · exact (mk _).andThen (ih (i + 1))

theorem within {w : Walk} (hw : w.Fatal) (offset i : Nat) : (w.within offset i).Fatal := hw

end Walk.Fatal

/-- What a walk cannot read is a cell that is not what the token says. -/
theorem TokenStream.walkRange_fatal (ts : TokenStream) (o : Object) (cells : Array Cell)
    (base i stop : Nat) : (ts.walkRange o cells base i stop).Fatal := by
  fun_induction TokenStream.walkRange ts o cells base i stop with
  | case1 | case2 | case11 | case13 | case19 => exact .mk []
  | case5 | case6 | case8 | case9 | case14 | case15 | case17 => exact .mismatch _ _ _
  | case3 => assumption
  | case4 | case7 | case16 | case18 => exact (Walk.Fatal.mk _).andThen (by assumption)
  | case10 _ _ _ _ _ _ _ _ _ _ _ ihElements ihRest =>
    exact (Walk.Fatal.each ihElements _ 0).andThen ihRest
  | case12 _ _ _ _ _ _ _ _ _ _ _ ihElements ihRest =>
    exact (Walk.Fatal.each (fun e => (ihElements e).within _ e) _ 0).andThen ihRest

/-- Handling every visit of a walk in turn. -/
theorem Walk.Fatal.foldM {σ : Type} {bad : Fault → Prop} (hb : ∀ f : Fault, f.Broken → ¬ bad f)
    {w : Walk} (hw : w.Fatal) {f : σ → Visit → Except Fault σ} {I : σ → Prop} (hf : ∀ s v, I s → Ends bad (f s v) I) {s : σ} (hs : I s) :
    Ends bad (w.foldM f s) I := by
  unfold Walk.foldM
  refine (Ends.foldlM (fun _ => I) (fun v _ s => hf s v) hs).bind fun s' _ hs' => ?_
  split
  · rename_i e he
    exact hb e (hw e he)
  · exact hs'

section

variable {bad : Fault → Prop} {s : Schema} {t : Table} {cs : Clusters} {h : Handle}

theorem Schema.Averts.walk (hs : s.Averts bad) (o : Object) :
    Ends bad (orFault (s.walk o)) Walk.Fatal := by
  unfold Schema.walk
  cases hstream : s.stream o.classId with
  | error e =>
    cases e with
    | error e => exact hs.broken _ trivial
    | fault f => exact hs.stream _ f hstream
  | ok ts => exact ts.walkRange_fatal o o.cells 0 0 ts.size

/-- Where every class has a token stream, objects that fit can be walked. -/
theorem Schema.Streamed.walks (hs : s.Streamed) (hregular : s.Regular) {o : Object}
    (hfit : s.Fits o) : ∃ w, s.walk o = .ok w := by
  rcases hregular.walk_cases hfit with ⟨w, hw, -⟩ | ⟨f, hf, hover⟩
  · exact ⟨w, hw⟩
  · have hends := hs.averts.walk o
    rw [hf] at hends
    exact absurd hover.not_broken hends

theorem outsideOf_ends (hs : s.Averts bad) (t : Table) (inside : Handle → Bool) (h : Handle) :
    Ends bad (orFault (t.outsideOf s inside h)) fun _ => True := by
  unfold Table.outsideOf
  split
  · trivial
  · rename_i o _
    have hwalk := hs.walk o
    cases hw : s.walk o with
    | error e =>
      rw [hw] at hwalk
      exact hwalk
    | ok w =>
      rw [hw] at hwalk
      change Ends bad (orFault (w.complete.mapError .fault >>= _)) _
      cases hfault : w.fault with
      | none =>
        rw [show w.complete = .ok w.visits by simp [Walk.complete, hfault]]
        trivial
      | some f =>
        rw [show w.complete = .error f by simp [Walk.complete, hfault]]
        exact hs.broken f (hwalk f hfault)

/-- Looking at the references of some objects, each of which can fail in the same way only. -/
theorem mapM_ends {α β : Type} {f : α → Except Failure β}
    (hf : ∀ a, Ends bad (orFault (f a)) fun _ => True) (l : List α) :
    Ends bad (orFault (l.mapM f)) fun _ => True := by
  induction l with
  | nil => trivial
  | cons a rest ih =>
    rw [List.mapM_cons]
    have ha := hf a
    cases hx : f a with
    | error e =>
      rw [hx] at ha
      exact ha
    | ok b =>
      change Ends bad (orFault (rest.mapM f >>= _)) _
      cases hy : rest.mapM f with
      | error e =>
        rw [hy] at ih
        exact ih
      | ok bs => trivial

theorem noteAll_ends (hs : s.Averts bad) (t : Table) (c : Cluster) :
    Ends bad (orFault (c.noteAll s t)) fun _ => True := by
  unfold Cluster.noteAll
  have hall := mapM_ends (outsideOf_ends hs t (HandleSet.ofList c.objects).contains) c.objects
  dsimp only
  cases hx : c.objects.mapM (t.outsideOf s (HandleSet.ofList c.objects).contains) with
  | error e =>
    rw [hx] at hall
    exact hall
  | ok found => trivial

/-- The clusters are never more than before. -/
theorem refresh_ends (hs : s.Averts bad) (t : Table) (gone r : Handle) :
    Ends bad (cs.refresh s t gone r) fun cs' => cs'.size = cs.size := by
  unfold Clusters.refresh
  split
  · rfl
  · refine (noteAll_ends hs t _).bind fun c' _ _ => ?_
    exact List.length_map _

structure Lessened (t : Table) (cs : Clusters) (found : Option Cluster × Table × Clusters) :
    Prop where
  tidy : t.Tidy → found.2.1.Tidy
  size : found.2.2.size ≤ cs.size
  less : found.1 ≠ none → found.2.2.size < cs.size

theorem dissolve_ends (hs : s.Averts bad) (t : Table) (cs : Clusters) (root : Handle) :
    Ends bad (cs.dissolve s t root) (Lessened t cs) := by
  unfold Clusters.dissolve
  split
  · rename_i c hc
    obtain ⟨hmem, hroot⟩ := Clusters.mem_of_get? hc
    have hless : (cs.erase root).size < cs.size := by
      refine List.length_filter_lt_length_iff_exists.mpr ⟨c, hmem, ?_⟩
      simp [hroot]
    have hfold := Ends.foldlM (l := (cs.erase root).referencing root)
      (f := fun (cs : Clusters) r => cs.refresh s (c.members.foldl Table.freeMember
        (t.modify root fun o => (o.clear .clusterRoot).clear .noStrongReference)) root r)
      (fun _ (cs' : Clusters) => cs'.size = (cs.erase root).size)
      (fun r _ cs' he => (refresh_ends hs _ root r).mono fun cs'' h' => h'.trans he) rfl
    refine hfold.bind fun cs' _ hsize => ⟨fun ht => ?_, ?_, fun _ => ?_⟩
    · refine List.foldlRecOn c.members Table.freeMember (ht.modify _ fun _ => rfl) fun t ht h _ => ?_
      refine ht.modify _ fun o => ?_
      dsimp only
      split <;> rfl
    · exact Nat.le_trans (Nat.le_of_eq hsize) (Nat.le_of_lt hless)
    · exact Nat.lt_of_le_of_lt (Nat.le_of_eq hsize) hless
  · exact ⟨id, Nat.le_refl _, fun hne => absurd rfl hne⟩

structure Fewer (cs : Clusters) (found : List Handle × Table × Clusters) : Prop where
  tidy : found.2.1.Tidy
  size : found.2.2.size ≤ cs.size
  less : found.1 ≠ [] → found.2.2.size < cs.size

theorem Fewer.dissolveInto_ends (hs : s.Averts bad) {found : List Handle × Table × Clusters}
    (hf : Fewer cs found) (root : Handle) :
    Ends bad (Clusters.dissolveInto s found root) (Fewer cs) := by
  unfold Clusters.dissolveInto
  refine (dissolve_ends hs found.2.1 found.2.2 root).bind ?_
  rintro ⟨c?, t', cs'⟩ _ ⟨htidy, hsize, hless⟩
  dsimp only at htidy hsize hless ⊢
  split
  · exact ⟨htidy hf.tidy, Nat.le_trans hsize hf.size,
      fun hne => Nat.lt_of_le_of_lt hsize (hf.less hne)⟩
  · have hlt := Nat.lt_of_lt_of_le (hless (by simp)) hf.size
    exact ⟨htidy hf.tidy, Nat.le_of_lt hlt, fun _ => hlt⟩

/-- Where no cluster was dissolved, nobody has survived one. -/
theorem dissolveOutlived_ends (hs : s.Averts bad) (ht : t.Tidy) (cs : Clusters) :
    Ends bad (cs.dissolveOutlived s t) fun found => found.2.2.1.Tidy ∧
      (found.2.1 ≠ [] → found.2.2.2.size < cs.size) := by
  have hstart : Fewer cs ([], t, cs) := ⟨ht, Nat.le_refl _, fun hne => absurd rfl hne⟩
  have hfold := Ends.foldlM (l := (cs.list.filter (Clusters.outlived t)).map (·.root))
    (fun _ => Fewer cs) (fun root _ found hf => hf.dissolveInto_ends hs root) hstart
  unfold Clusters.dissolveOutlived
  exact hfold.bind fun found _ hf => ⟨hf.tidy, hf.less⟩

theorem dissolveUnreachable_ends (hs : s.Averts bad) (t : Table) (cs : Clusters) :
    Ends bad (cs.dissolveUnreachable s t) fun _ => True := by
  unfold Clusters.dissolveUnreachable
  refine Ends.bind (Q := fun _ => True) ?_ fun _ _ _ => trivial
  refine Ends.foldlM (fun _ _ => True) (fun root _ found _ => ?_) trivial
  exact (dissolve_ends hs found.1 found.2 root).bind fun _ _ _ => trivial

theorem clearDeadWeakAll_ends (hs : s.Averts bad) (t : Table) (objects : List Handle) :
    Ends bad (t.clearDeadWeakAll s objects) fun _ => True := by
  unfold Table.clearDeadWeakAll
  refine Ends.foldlM (fun _ _ => True) (fun h _ found _ => ?_) trivial
  unfold Table.clearDeadWeak
  split
  · trivial
  · refine (hs.walk _).bind fun w _ hw => ?_
    exact hw.foldM hs.broken (I := fun _ => True) (fun _ _ _ => by exact trivial) trivial

theorem clearWeak_ends (hs : s.Averts bad) (cs : Clusters) (met : Array Site) (t : Table) :
    Ends bad (Collector.clearWeak s cs met t) fun _ => True := by
  unfold Collector.clearWeak
  refine (clearDeadWeakAll_ends hs _ _).bind fun found _ _ => ?_
  exact (clearDeadWeakAll_ends hs _ _).bind fun _ _ _ => trivial

end

end TracingHeap
