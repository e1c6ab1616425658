import TracingHeap.Collector.Collection

namespace TracingHeap

/-- The two clusters differ at most in the order of their references. -/
structure Cluster.Alike (c d : Cluster) : Prop where
  root : d.root = c.root
  members : d.members = c.members
  referenced : c.referenced.Perm d.referenced
  mutables : c.mutables.Perm d.mutables

structure Clusters.Alike (cs ds : Clusters) : Prop where
  roots : (cs.list.map (·.root)).Perm (ds.list.map (·.root))
  forth : ∀ c ∈ cs.list, ∃ d ∈ ds.list, c.Alike d
  back : ∀ d ∈ ds.list, ∃ c ∈ cs.list, c.Alike d

namespace Tracer

/-- The objects of a wave are looked at one after the other. -/
inductive Takes (tr : Tracer) :
    List Handle → Table → List TaskOutput → Table → List TaskOutput → Prop where
  | done (t : Table) (outputs : List TaskOutput) : Takes tr [] t outputs t outputs
  | next {wave rest : List Handle} {h : Handle} {i : Nat} {t t' : Table} {pool : ScratchPool}
      {output : TaskOutput} {outputs outputs' : List TaskOutput} {m : Marking}
      (order : wave.Perm (h :: rest)) (task : outputs[i]? = some output)
      (process : tr.process ⟨t, pool, output⟩ h = .ok m)
      (others : Takes tr rest m.table (outputs.set i m.output) t' outputs') :
      Takes tr wave t outputs t' outputs'

/-- Wave follows wave until one hands nothing on. -/
inductive Floods (tr : Tracer) : List Handle → Table → Tally → Table → Tally → Prop where
  | done (t : Table) (tally : Tally) : Floods tr [] t tally t tally
  | next {wave wave' : List Handle} {n : Nat} {t t₁ t' : Table} {tally tally' : Tally}
      {outputs : List TaskOutput} (some : wave ≠ [])
      (takes : tr.Takes wave t (List.replicate n .empty) t₁ outputs)
      (order : wave'.Perm (outputs.flatMap (·.reached.toList)))
      (others : Floods tr wave' t₁
        (outputs.foldl Tally.add { tally with waves := tally.waves + 1 }) t' tally') :
      Floods tr wave t tally t' tally'

end Tracer

/-- Clusters are dissolved one after the other, and the members that survive are listed. -/
inductive Clusters.Scatters (s : Schema) : List Handle → List Handle × Table × Clusters →
    List Handle × Table × Clusters → Prop where
  | done {survivors : List Handle} {t : Table} {cs cs' : Clusters} (same : cs.Alike cs') :
      Scatters s [] (survivors, t, cs) (survivors, t, cs')
  | next {roots rest survivors : List Handle} {r : Handle} {t : Table} {cs cs' : Clusters}
      {found last : List Handle × Table × Clusters} (order : roots.Perm (r :: rest))
      (same : cs.Alike cs') (dissolve : dissolveInto s (survivors, t, cs') r = .ok found)
      (others : Scatters s rest found last) : Scatters s roots (survivors, t, cs) last

structure Stand where
  table : Table
  clusters : Clusters
  tally : Tally
  /-- The clusters broken up so far. -/
  dissolved : Nat

/-- Tracing and dissolving take turns until no dissolved cluster leaves a survivor. -/
inductive MarksRounds (s : Schema) (keeping : Bool) : List Handle → Stand → Stand → Prop where
  | last {frontier roots : List Handle} {t t₁ t₂ : Table} {cs cs₁ cs₂ : Clusters}
      {tally tally₁ : Tally} {n : Nat} (same : cs.Alike cs₁)
      (floods : (Tracer.mk s cs₁ keeping).Floods frontier t tally t₁ tally₁)
      (order : roots.Perm ((cs₁.list.filter (Clusters.outlived t₁)).map (·.root)))
      (scatters : Clusters.Scatters s roots ([], t₁, cs₁) ([], t₂, cs₂)) :
      MarksRounds s keeping frontier ⟨t, cs, tally, n⟩ ⟨t₂, cs₂, tally₁, n + roots.length⟩
  | next {frontier roots survivors : List Handle} {t t₁ t₂ : Table} {cs cs₁ cs₂ : Clusters}
      {tally tally₁ : Tally} {n : Nat} {r : Stand} (same : cs.Alike cs₁)
      (floods : (Tracer.mk s cs₁ keeping).Floods frontier t tally t₁ tally₁)
      (order : roots.Perm ((cs₁.list.filter (Clusters.outlived t₁)).map (·.root)))
      (scatters : Clusters.Scatters s roots ([], t₁, cs₁) (survivors, t₂, cs₂))
      (some : survivors ≠ [])
      (others : MarksRounds s keeping survivors ⟨t₂, cs₂, tally₁, n + roots.length⟩ r) :
      MarksRounds s keeping frontier ⟨t, cs, tally, n⟩ r

namespace Collector

/-- The dead are found: the table and the clusters afterwards, and what is reported. -/
inductive Finds (c : Collector) (keep : Flags) : Statistics → Table → Clusters → Prop where
  | intro {cs cs₁ : Clusters} {seeds roots survivors : List Handle} {met : Array Site}
      {t t₁ t₂ : Table} {r : Stand} {considered cleared : Nat} (parallel : Bool)
      (same : c.clusters.Alike cs)
      (verified : { c with clusters := cs }.verifyClusters = .ok ())
      (seeded : seed keep c.table = .ok (seeds, considered, t))
      (marked : MarksRounds c.schema c.settings.memberKeepsCluster seeds
        ⟨t, c.clusters, .empty, 0⟩ r)
      (order : roots.Perm ((r.clusters.list.filter fun e => r.table.isUnreachable e.root).map
        (·.root)))
      (scattered : Clusters.Scatters c.schema roots ([], r.table, r.clusters) (survivors, t₁, cs₁))
      (weak : met.Perm r.tally.weak)
      (swept : clearWeak c.schema cs₁ met t₁ = .ok (t₂, cleared)) :
      Finds c keep
        { considered := considered
          scanned := r.tally.scanned
          unreachable := t₂.countWith (.single .unreachable)
          dissolved := r.dissolved + roots.length
          weakCleared := cleared
          purged := 0
          waves := r.tally.waves
          parallel := parallel
          phases := (if c.settings.verify then [.verify] else [])
            ++ [.mark, .unhash, .clearWeakReferences] }
        t₂ cs₁

/-- The run of a collection with its order left open: what the purge works on and the clusters afterwards, and
what is reported. The objects of a wave may be looked at in any order, each by any of the tasks, and what is
kept in hash maps and hash sets may be listed in any order, anew each time it is used. The purge itself goes
through the table in order. -/
inductive Collects (c : Collector) (keep : Flags) (full : Bool) :
    Statistics → PurgeState → Clusters → Prop where
  | intro {b : Collector} {n freed : Nat} {found : Statistics} {t : Table} {cs : Clusters}
      {p : PurgeState}
      (first : ({ c with misses := 0 } : Collector).finishPurge = .ok (n, b))
      (finds : b.Finds keep found t cs)
      (purge : if full then ∃ progress : Progress,
          PurgeState.run b.schema none ⟨b.purge.request found.considered, t, b.journal⟩ =
            .ok (progress, p) ∧ freed = progress.purged
        else p = ⟨b.purge.request found.considered, t, b.journal⟩ ∧ freed = 0) :
      Collects c keep full
        { found with
          purged := n + freed
          phases := (if c.isPurgePending then [.finishPreviousPurge] else []) ++ found.phases
            ++ if full then [.purge] else [] }
        p cs

end Collector

end TracingHeap
