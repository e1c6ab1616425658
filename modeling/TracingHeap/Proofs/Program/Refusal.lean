import TracingHeap.Proofs.Program.History

namespace TracingHeap

/-- The errors by which a call refuses what it is asked. -/
def HeapError.Refuses : HeapError → Prop
  | unknownClass _ | duplicateClass _ | missingReferenceDescriptor .. | invalidHandle _
  | fieldMismatch .. | invalidCluster .. | rootedPendingKill _ | badSetting .. => True
  | _ => False

def Answers {α : Type} (P : HeapError → Prop) (x : Except Failure α) : Prop :=
  ∀ e, x = .error (.error e) → P e

namespace Answers

variable {α β : Type} {P : HeapError → Prop} {x : Except Failure α}

theorem ok (a : α) : Answers P (.ok a) := fun _ he => nomatch he

theorem bind {f : α → Except Failure β} (hx : Answers P x) (hf : ∀ a, x = .ok a → Answers P (f a)) :
    Answers P (x >>= f) := by
  intro e he
  rcases except_bind_error he with he | ⟨a, ha, he⟩
  · exact hx e he
  · exact hf a ha e he

theorem of_answer {y : Except HeapError α} (hy : ∀ e, y = .error e → P e) :
    Answers P (y.mapError .error) := by
  intro e he
  cases y with
  | ok a => cases he
  | error _ =>
    cases he
    exact hy e rfl

/-- A fault is not answered. -/
theorem of_fault (y : Except Fault α) : Answers P (y.mapError .fault) := by
  intro e he
  cases y <;> cases he

end Answers

mutual

theorem Kind.check_error (className field : String) : (k : Kind) → ∀ {e : HeapError},
    k.check className field = .error e → e.Refuses
  | .fixed element _ => fun h => element.check_error className field (by rwa [Kind.check] at h)
  | .inline name fields | .structs name fields => fun h =>
    fields.check_error className (name ++ ".") (by rwa [Kind.check] at h)
  | .container spec => fun h => by
    rw [Kind.check] at h
    split at h <;> cases h
    trivial
  | .value | .reference _ | .references _ => fun h => by
    rw [Kind.check] at h
    · cases h
    all_goals simp

theorem Fields.check_error (className path : String) : (fs : Fields) → ∀ {e : HeapError},
    fs.check className path = .error e → e.Refuses
  | .nil => fun h => nomatch h
  | .cons name kind rest => fun h => by
    rw [Fields.check] at h
    rcases except_bind_error h with h | ⟨_, -, h⟩
    · exact kind.check_error className (path ++ name) h
    · exact rest.check_error className path h

end

namespace Schema

variable {s : Schema} {id : ClassId} {e : HeapError}

theorem get_error (h : s.get id = .error e) : e.Refuses := by
  unfold get at h
  split at h <;> cases h
  trivial

theorem parent_error {spec : ClassSpec} (h : s.parent spec = .error e) : e.Refuses := by
  unfold parent at h
  split at h
  · cases h
  · cases hp : s.get _ with
    | ok p =>
      rw [hp] at h
      cases h
    | error d =>
      rw [hp] at h
      cases h
      exact get_error hp

theorem nextId_error {s : Schema} {e : HeapError} (h : s.nextId = .error e) : e.Refuses := by
  unfold nextId at h
  split at h
  · cases h
  · cases h
    trivial

theorem register_answers (s : Schema) (spec : ClassSpec) :
    Answers HeapError.Refuses (s.register spec) := by
  unfold register
  split
  · intro e he
    cases he
    trivial
  · refine Answers.bind (.of_answer fun _ => spec.fields.check_error spec.name "") fun _ _ => ?_
    refine Answers.bind (.of_answer fun _ => parent_error) fun parent _ => ?_
    refine Answers.bind (.of_answer fun _ => nextId_error) fun id _ => ?_
    exact Answers.bind (.of_fault _) fun entry _ => .ok _

theorem instantiate_answers (s : Schema) (id : ClassId) :
    Answers HeapError.Refuses (s.instantiate id) := by
  unfold instantiate
  refine Answers.bind (.of_answer fun _ => get_error) fun entry _ => ?_
  exact Answers.bind (.of_fault _) fun _ _ => .ok _

/-- Reading an object of a registered class gives no error to answer, whatever its cells. -/
theorem walk_answers {o : Object} {entry : ClassEntry} (hc : s.get? o.classId = some entry)
    (P : HeapError → Prop) : Answers P (s.walk o) := by
  have hget : s.get o.classId = .ok entry := by rw [get, hc]
  unfold walk stream
  rw [hget]
  exact Answers.bind (.of_fault entry.stream) fun ts _ => .ok _

end Schema

theorem Table.clusterable_error {t : Table} {h : Handle} {e : HeapError}
    (he : t.clusterable h = .error e) : e.Refuses := by
  unfold clusterable at he
  repeat' split at he
  all_goals cases he
  all_goals trivial

def Table.Classed (s : Schema) (t : Table) : Prop :=
  ∀ h o, t.get? h = some o → ∃ entry, s.get? o.classId = some entry

section

variable {s : Schema} {t : Table} {P : HeapError → Prop}

theorem Table.outsideOf_answers (hc : t.Classed s) (inside : Handle → Bool) (h : Handle) :
    Answers P (t.outsideOf s inside h) := by
  unfold outsideOf
  cases ho : t.get? h with
  | none => exact .ok []
  | some o =>
    obtain ⟨entry, hentry⟩ := hc h o ho
    refine (Schema.walk_answers hentry P).bind fun w _ => ?_
    exact Answers.bind (.of_fault _) fun visits _ => .ok _

theorem Cluster.noteObject_answers (hc : t.Classed s) (c : Cluster) (h : Handle) :
    Answers P (c.noteObject s t h) :=
  Answers.bind (Table.outsideOf_answers hc c.encloses h) fun _ _ => .ok _

theorem Cluster.mapM_outsideOf_answers (hc : t.Classed s) (inside : Handle → Bool)
    (l : List Handle) : Answers P (l.mapM (t.outsideOf s inside)) := by
  induction l with
  | nil => exact .ok []
  | cons h rest ih =>
    rw [List.mapM_cons]
    refine (Table.outsideOf_answers hc inside h).bind fun _ _ => ?_
    exact ih.bind fun _ _ => .ok _

/-- Forming a cluster is refused for the sake of an object only. -/
theorem Cluster.form_answers (hc : t.Classed s) (root : Handle) (members : List Handle) :
    Answers HeapError.Refuses (form s t root members) := by
  unfold form
  refine Answers.bind (.of_answer fun e he => ?_) fun _ _ => ?_
  · generalize root :: members = l at he
    induction l with
    | nil => cases he
    | cons h rest ih =>
      simp only [List.forM_eq_forM, List.forM_cons] at he
      rcases except_bind_error he with he | ⟨_, -, he⟩
      · exact Table.clusterable_error he
      · exact ih he
  · refine Answers.bind ?_ fun c _ => .ok _
    exact (mapM_outsideOf_answers hc _ _).bind fun _ _ => .ok _

/-- Recording the references of an object gives no error to answer: the cluster it belongs to is
registered. -/
theorem Clusters.record_answers {cs : Clusters} {h : Handle} {o : Object} (hc : t.Classed s)
    (he : Enrolled t cs) (ho : t.get? h = some o) : Answers P (cs.record s t h) := by
  have hregistered : ∀ r, (if o.has .clusterRoot then some h else o.owner) = some r →
      ∃ c, cs.get? r = some c := by
    intro r hr
    split at hr
    · rename_i hf
      cases hr
      obtain ⟨c, hm, hroot⟩ := he.registered h o ho hf
      exact ⟨c, hroot ▸ get?_of_mem he.distinct hm⟩
    · obtain ⟨c, hm, hroot, -⟩ := he.listed h o r ho hr
      exact ⟨c, hroot ▸ get?_of_mem he.distinct hm⟩
  unfold record
  simp only [ho]
  split
  · exact .ok cs
  · rename_i r hr
    obtain ⟨c, hget⟩ := hregistered r hr
    simp only [hget]
    exact (Cluster.noteObject_answers hc c h).bind fun _ _ => .ok _

end

theorem Collector.Sound.classed {c : Collector} (hc : c.Sound) : c.table.Classed c.schema := by
  intro h o ho
  obtain ⟨entry, hentry, -⟩ := (hc.settled.orderly.fits h o ho).1
  exact ⟨entry, hentry⟩

namespace Collector

variable {c d : Collector} {e : HeapError}

/-- The collector after a call that was refused is the one before. When the table has no slot left for
a new object, a slot without a number was added that stays empty. -/
inductive Refused (c : Collector) : HeapError → Collector → Prop where
  | unchanged {e : HeapError} : e.Refuses → Refused c e c
  | full : Refused c .tableExhausted
      { c with table := { c.table with slots := c.table.slots.push none } }

theorem object_error {h : Handle} (he : c.object h = .error e) : e.Refuses := by
  unfold object at he
  split at he <;> cases he
  trivial

theorem checkTarget_error {t : Table} {target : Slot} (he : checkTarget t target = .error e) :
    e.Refuses := by
  unfold checkTarget at he
  repeat' split at he
  all_goals cases he
  all_goals trivial

/-- A call that settles what another computation made answers the errors of that computation, and has
changed nothing then. -/
theorem refused_of_settle {α β : Type} {made : Except Failure α} {take : α → β × Collector}
    (hm : Answers HeapError.Refuses made) (hs : c.settle made take = .ok (.error e, d)) :
    c.Refused e d := by
  unfold settle at hs
  split at hs
  · cases hs
  · cases hs
    exact .unchanged (hm e rfl)
  · cases hs

theorem createObject_refused {id : ClassId} {name : String}
    (hs : c.createObject id name = .ok (.error e, d)) : c.Refused e d := by
  unfold createObject at hs
  split at hs
  · rename_i he
    cases hs
    exact .unchanged (c.schema.instantiate_answers id e he)
  · cases hs
  · rename_i cells _
    cases ha : c.table.allocate id name cells with
    | mk made t =>
      rw [ha] at hs
      cases made with
      | some h => cases hs
      | none =>
        cases hs
        unfold Table.allocate at ha
        split at ha
        · cases ha
        · split at ha <;> cases ha
          exact .full

/-- Recording what was written to an object is not refused. -/
theorem record_not_refused (hc : c.Sound) {h : Handle} {o : Object} (ho : c.table.get? h = some o)
    {u : Object → Object} (hu : ∀ o : Object, o.Recelled (u o)) :
    ({ c with table := c.table.modify h u }.record h) ≠ .ok (.error e, d) := by
  have hself : (c.table.modify h u).get? h = some (u o) := by
    rw [Table.get?_modify_self, ho]
    rfl
  have hclassed : (c.table.modify h u).Classed c.schema := by
    intro g p hp
    obtain ⟨q, hq, hr, -⟩ := (c.table.evolves_recelled hu h).back hp
    rw [hr.classId]
    exact hc.classed g q hq
  have hrecord := Clusters.record_answers (P := fun _ => False) hclassed
    (hc.settled.orderly.enrolled.recelled hu h) hself
  intro hs
  unfold record settle at hs
  split at hs
  · cases hs
  · rename_i x hx
    exact hrecord x hx
  · cases hs

theorem writeReference_refused (hc : c.Sound) {h : Handle} {offset : Nat} {target : Slot}
    {expected : String} (hs : c.writeReference h offset target expected = .ok (.error e, d)) :
    c.Refused e d := by
  unfold writeReference at hs
  split at hs
  · rename_i he
    cases hs
    exact .unchanged (checkTarget_error he)
  · rename_i he _
    cases hs
    exact .unchanged (object_error he)
  · rename_i o _ hobject
    split at hs
    · split at hs
      · exact absurd hs (record_not_refused hc (object_ok hobject) fun _ => ⟨⟨rfl, rfl, rfl⟩, rfl, rfl⟩)
      · cases hs
    · cases hs
      exact .unchanged trivial

theorem revise_refused (hc : c.Sound) {h : Handle} {f : Array Cell → Array Cell}
    (hs : c.revise h f = .ok (.error e, d)) : c.Refused e d := by
  unfold revise at hs
  split at hs
  · rename_i he
    cases hs
    exact .unchanged (object_error he)
  · rename_i o hobject
    exact absurd hs (record_not_refused hc (u := fun o => { o with cells := f o.cells })
      (object_ok hobject) fun _ => ⟨⟨rfl, rfl, rfl⟩, rfl, rfl⟩)

theorem formCluster_refused (hc : c.Sound) {root : Handle} {members : List Handle}
    (hs : c.formCluster root members = .ok (.error e, d)) : c.Refused e d := by
  unfold formCluster at hs
  split at hs
  · rename_i he
    cases hs
    exact .unchanged (Cluster.form_answers hc.classed root members e he)
  · cases hs
  · cases hs

theorem setFlags_refused {h : Handle} {m : Flags} (hs : c.setFlags h m = (.error e, d)) :
    c.Refused e d := by
  unfold setFlags at hs
  split at hs <;> cases hs
  rename_i he
  exact .unchanged (object_error he)

theorem clearFlags_refused {h : Handle} {m : Flags} (hs : c.clearFlags h m = (.error e, d)) :
    c.Refused e d := by
  unfold clearFlags at hs
  split at hs <;> cases hs
  rename_i he
  exact .unchanged (object_error he)

theorem addRoot_refused {h : Handle} (hs : c.addRoot h = (.error e, d)) : c.Refused e d := by
  unfold addRoot at hs
  split at hs
  · rename_i he
    cases hs
    exact .unchanged (object_error he)
  · split at hs <;> cases hs
    exact .unchanged trivial

theorem kill_refused {h : Handle} (hs : c.kill h = (.error e, d)) : c.Refused e d := by
  unfold kill at hs
  split at hs
  · rename_i he
    cases hs
    exact .unchanged (object_error he)
  · split at hs <;> cases hs
    exact .unchanged trivial

theorem putCell_refused (hc : c.Sound) {h : Handle} {offset : Nat} {cell : Cell}
    (hs : c.putCell h offset cell = .ok (.error e, d)) : c.Refused e d := by
  obtain ⟨done, isThere, hrevised, he⟩ := putCell_ok hs
  cases done with
  | ok _ => cases he
  | error _ =>
    cases he
    exact revise_refused hc hrevised

/-- A reply tells the answer of the call. -/
theorem reply_cases {α : Type} {f : α → Reply} {call : Outcome α} {r : Reply}
    (hs : reply f call = .ok (r, d)) : ∃ answer, call = .ok (answer, d) ∧ r = .ofAnswer f answer := by
  cases call with
  | error _ => cases hs
  | ok found =>
    cases hs
    exact ⟨found.1, rfl, rfl⟩

theorem replied_cases {answered : Except HeapError Unit × Collector} {r : Reply}
    (hs : replied answered = .ok (r, d)) :
    answered.2 = d ∧ r = .ofAnswer (fun _ => .done) answered.1 := by
  cases hs
  exact ⟨rfl, rfl⟩

/-- An error in a reply is the answer of the call. -/
theorem error_of_reply {α : Type} {f : α → Reply} {call : Outcome α} (hf : ∀ a, f a ≠ .error e)
    (hs : reply f call = .ok (.error e, d)) : call = .ok (.error e, d) := by
  obtain ⟨answer, hcall, hr⟩ := reply_cases hs
  cases answer with
  | error _ =>
    cases hr
    exact hcall
  | ok a => exact absurd hr.symm (hf a)

theorem error_of_replied {answered : Except HeapError Unit × Collector}
    (hs : replied answered = .ok (.error e, d)) : answered = (.error e, d) := by
  obtain ⟨answer, b⟩ := answered
  obtain ⟨rfl, hr⟩ := replied_cases hs
  cases answer <;> cases hr
  rfl

/-- A call that answers an error has refused what it was asked. -/
theorem perform_refused (hc : c.Sound) {op : Operation}
    (hs : c.perform op = .ok (.error e, d)) : c.Refused e d := by
  cases op with
  | registerClass spec =>
    exact refused_of_settle (c.schema.register_answers spec) (error_of_reply (by simp) hs)
  | createObject id name => exact createObject_refused (error_of_reply (by simp) hs)
  | closePermanentPool => cases hs
  | setFlags h m => exact setFlags_refused (error_of_replied hs)
  | clearFlags h m => exact clearFlags_refused (error_of_replied hs)
  | addRoot h => exact addRoot_refused (error_of_replied hs)
  | removeRoot h => exact clearFlags_refused (error_of_replied hs)
  | kill h => exact kill_refused (error_of_replied hs)
  | setReference h offset target | pushReference h offset target =>
    exact writeReference_refused hc (error_of_reply (by simp) hs)
  | putCell h offset cell => exact putCell_refused hc (error_of_reply (by simp) hs)
  | revise h f => exact revise_refused hc (error_of_reply (by simp) hs)
  | formCluster root members => exact formCluster_refused hc (error_of_reply (by simp) hs)
  | hold | letGo | setGate _ | drain => cases hs
  | collect keep full =>
    simp only [perform] at hs
    split at hs
    · cases hs
    · obtain ⟨found, -, hs⟩ := except_bind_ok hs
      cases hs
  | tryCollect keep full =>
    obtain ⟨⟨stats?, b⟩, -, hs⟩ := except_bind_ok hs
    cases stats? <;> cases hs
  | purge deadline =>
    obtain ⟨found, -, hs⟩ := except_bind_ok hs
    cases hs
  | shutdown =>
    simp only [perform] at hs
    split at hs
    · cases hs
    · obtain ⟨found, -, hs⟩ := except_bind_ok hs
      cases hs

end Collector

/-- Whatever a program asks of a heap it has come to, a call that answers an error has refused what it
was asked and changed nothing; only an object for which the table has no slot leaves an empty slot
behind. No call answers that the clusters are in disorder: a write is recorded with the cluster of
the object that was written to, and this cluster is registered. The heap is one of honest classes, whose pool
was never closed while the object in slot 4294967295 was in a cluster. -/
theorem Reached.refusal_changes_nothing {c d : Collector} (hr : Reached c) {op : Operation}
    {e : HeapError} (hs : c.perform op = .ok (.error e, d)) :
    (∀ reason, e ≠ .clusterInvariant reason) ∧
      (e.Refuses ∧ d = c ∨ e = .tableExhausted ∧
        d = { c with table := { c.table with slots := c.table.slots.push none } }) := by
  cases Collector.perform_refused hr.sound hs with
  | unchanged he =>
    refine ⟨fun reason heq => ?_, .inl ⟨he, rfl⟩⟩
    rw [heq] at he
    exact he
  | full => exact ⟨fun _ => nofun, .inr ⟨rfl, rfl⟩⟩

open Sample in
/-- The root of a cluster cannot be made to refer to an object that a collection has condemned. -/
theorem refusal_changes_nothing_condemned : ∃ c, Reached c ∧ c.clusters.contains one = true ∧
    c.perform (.setReference one 0 (some two)) = .ok (.error (.invalidHandle two), c) := by
  let asked : Operation := .setReference one 0 (some two)
  let calls : List Operation := nodes 2 ++ [.formCluster one [], .addRoot one, .collect .empty false]
  have hrun : Collector.runs .default node calls (fun c =>
      c.clusters.contains one && match c.perform asked with
        | .ok (.error (.invalidHandle h), _) => decide (h = two)
        | _ => false) = true := by
    decide +kernel
  obtain ⟨c, hr, hc⟩ := Reached.of_runs node_honest (by decide) hrun
  obtain ⟨hcluster, htest⟩ := Bool.and_eq_true_iff.mp hc
  refine ⟨c, hr, hcluster, ?_⟩
  split at htest
  · rename_i h d hs
    rcases hr.refusal_changes_nothing hs with ⟨-, ⟨-, hd⟩ | ⟨he, -⟩⟩
    · rw [hd, of_decide_eq_true htest] at hs
      exact hs
    · cases he
  · cases htest

end TracingHeap
