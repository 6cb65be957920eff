import Rs5cmd.Lib.JoinLoop
import Rs5cmd.Storage.Object

/-!
# The fast path's threads (`fastpath/runtime.rs`)

The transfers are dealt out to one shard per thread. A thread keeps a bounded
number of transfers in flight and sends every outcome to one channel, so the
outcomes of all shards arrive in some interleaving. A thread whose client cannot
be built reports that for each of its transfers.
-/

namespace Rs5cmd

section Shards

variable {α : Type}

/-- The round-robin shards. -/
def shards (cores : Nat) (items : List α) : List (List α) :=
  (List.range cores).map fun c => (items.zipIdx.filter fun e => e.2 % cores = c).map Prod.fst

/-- Sorting a list into `n` classes and putting these together again. -/
theorem flatten_classes_perm {β : Type} (f : β → Nat) (l : List β) (n : Nat) :
    ((List.range n).map fun c => l.filter fun b => f b = c).flatten.Perm
      (l.filter fun b => f b < n) := by
  induction n with
  | zero => simp
  | succ n ih =>
    rw [List.range_succ, List.map_append, List.flatten_append, List.map_singleton,
      List.flatten_singleton]
    have hsplit := List.filter_append_perm (fun b => decide (f b < n))
      (l.filter fun b => f b < n + 1)
    have hlow : (l.filter fun b => f b < n + 1).filter (fun b => decide (f b < n)) =
        l.filter fun b => f b < n := by
      rw [List.filter_filter]
      refine List.filter_congr fun b _ => ?_
      rw [← Bool.decide_and, decide_eq_decide]
      omega
    have htop : (l.filter fun b => f b < n + 1).filter (fun b => !decide (f b < n)) =
        l.filter fun b => f b = n := by
      rw [List.filter_filter]
      refine List.filter_congr fun b _ => ?_
      rw [← decide_not, ← Bool.decide_and, decide_eq_decide]
      omega
    rw [hlow, htop] at hsplit
    exact (ih.append_right _).trans hsplit

/-- Every item is in one shard. -/
theorem flatten_shards_perm {cores : Nat} (hcores : 0 < cores) (items : List α) :
    (shards cores items).flatten.Perm items := by
  have hperm := flatten_classes_perm (fun e : α × Nat => e.2 % cores) items.zipIdx cores
  have hall : (items.zipIdx.filter fun e => e.2 % cores < cores) = items.zipIdx := by
    rw [List.filter_eq_self]
    intro e _
    exact decide_eq_true (Nat.mod_lt _ hcores)
  rw [hall] at hperm
  have hmap := hperm.map Prod.fst
  rw [List.zipIdx_map_fst, List.map_flatten, List.map_map] at hmap
  exact hmap

end Shards

/-! ## Running the shards -/

section Running

variable {α ρ : Type}

/-- The loop of `run_shard`, which only collects the outcomes. -/
def shardParams (concurrency : Nat) : JoinLoop.Params α (Except ρ Unit) Unit where
  workers := max concurrency 1
  report := fun _ _ => ()
  stop := fun _ => false

/-- What one thread sends for its shard. -/
inductive ShardRun (concurrency : Nat) (shard : List α) : List (α × Except ρ Unit) → Prop where
  | ran {es : List (JoinLoop.Event (Except ρ Unit))} {l : JoinLoop α (Except ρ Unit) Unit}
      (hrun : Machine.run (JoinLoop.step (shardParams concurrency)) { todo := shard, acc := () } es =
        some l)
      (hfinished : JoinLoop.Finished (shardParams concurrency) l) : ShardRun concurrency shard l.joined
  | noClient (e : ρ) : ShardRun concurrency shard (shard.map fun a => (a, .error e))

/-- `run_transfers`: the outcomes of all shards, in the order of the channel. -/
def FastRun (cores concurrency : Nat) (items : List α) (outcomes : List (α × Except ρ Unit)) : Prop :=
  ∃ logs, List.Forall₂ (ShardRun concurrency) (shards (min (max cores 1) items.length) items) logs ∧
    outcomes.Perm logs.flatten

theorem ShardRun.perm {concurrency : Nat} {shard : List α} {log : List (α × Except ρ Unit)}
    (h : ShardRun concurrency shard log) : (log.map Prod.fst).Perm shard := by
  cases h with
  | ran hrun hfinished => exact (JoinLoop.run_accounted hrun).perm_of_finished hfinished rfl
  | noClient e =>
    rw [List.map_map]
    exact List.Perm.of_eq (List.map_id _)

/-- **Every transfer has one outcome**, whatever the threads do. -/
theorem FastRun.perm {cores concurrency : Nat} {items : List α} {outcomes : List (α × Except ρ Unit)}
    (h : FastRun cores concurrency items outcomes) : (outcomes.map Prod.fst).Perm items := by
  obtain ⟨logs, hlogs, hperm⟩ := h
  have hflat : ∀ {shards : List (List α)} {logs : List (List (α × Except ρ Unit))},
      List.Forall₂ (ShardRun concurrency) shards logs →
        (logs.flatten.map Prod.fst).Perm shards.flatten := by
    intro shards logs hlogs
    induction hlogs with
    | nil => exact List.Perm.refl _
    | cons hlog _ ih =>
      rw [List.flatten_cons, List.flatten_cons, List.map_append]
      exact hlog.perm.append ih
  refine (hperm.map Prod.fst).trans ((hflat hlogs).trans ?_)
  cases hitems : items with
  | nil => exact List.Perm.of_eq (by simp [shards])
  | cons a rest =>
    rw [← hitems]
    refine flatten_shards_perm ?_ items
    rw [hitems, List.length_cons]
    omega

end Running

end Rs5cmd
