import Rs5cmd.Theorems.InodeMaps

/-!
# A subtree gets another prefix

`rekey_prefix` takes entries out of the map of keys and puts others in, one node
after the other, in the order in which the hash map of the nodes is visited. Where no
known key starts with the new prefix the outcome is the same for each order.
-/

namespace Rs5cmd

namespace InodeTable

variable {t t' : InodeTable} {i : Nat} {n : Node} {oldPrefix newPrefix : Str}

/-- The map of keys is determined by the nodes. -/
theorem Paired.lookupKey_eq_some_iff (h : t.Paired) {k : Str} :
    t.lookupKey k = some i ↔ ∃ n, t.get i = some n ∧ n.key = k := by
  constructor
  · exact h.byKey k i
  · rintro ⟨n, hn, rfl⟩
    exact h.nodes i n hn

/-- Two tables with the same nodes and the same next number are one. -/
theorem Paired.ext (h : t.Paired) (h' : t'.Paired) (hget : ∀ i, t.get i = t'.get i)
    (hnext : t.next = t'.next) : t = t' := by
  have hnodes : t.nodes = t'.nodes := Std.ExtTreeMap.ext_getElem? fun i => hget i
  have hbyKey : t.byKey = t'.byKey := by
    refine Std.ExtTreeMap.ext_getElem? fun k => Option.ext fun i => ?_
    have hiff := h.lookupKey_eq_some_iff (k := k) (i := i)
    simp only [hget] at hiff
    exact hiff.trans h'.lookupKey_eq_some_iff.symm
  obtain ⟨nodes, byKey, next⟩ := t
  subst hnodes hbyKey hnext
  rfl

/-- No known key starts with `pfx`. -/
def Unused (t : InodeTable) (pfx : Str) : Prop :=
  ∀ k i, t.lookupKey k = some i → ¬ pfx <+: k

theorem Unused.freeFor (h : t.Unused newPrefix) (oldPrefix : Str) :
    t.FreeFor oldPrefix newPrefix := by
  intro i n _ _
  cases hk : t.lookupKey (newPrefix ++ n.key.drop oldPrefix.length) with
  | none => exact Or.inl rfl
  | some j => exact absurd (List.prefix_append _ _) (h _ j hk)

/-- The inodes that a rekeying names. -/
theorem mem_rekeyPrefix {order : List Nat} :
    i ∈ (t.rekeyPrefix order oldPrefix newPrefix).1 ↔
      ∃ n, t.get i = some n ∧ oldPrefix <+: n.key := by
  show i ∈ (t.affected order oldPrefix).map Prod.fst ↔ _
  rw [List.mem_map]
  constructor
  · rintro ⟨e, he, rfl⟩
    obtain ⟨hn, hstarts⟩ := mem_affected.mp he
    exact ⟨e.2, hn, of_decide_eq_true hstarts⟩
  · rintro ⟨n, hn, hstarts⟩
    exact ⟨(i, n), mem_affected.mpr ⟨hn, decide_eq_true hstarts⟩, rfl⟩

theorem nodup_rekeyPrefix (t : InodeTable) (order : List Nat) (oldPrefix newPrefix : Str) :
    (t.rekeyPrefix order oldPrefix newPrefix).1.Nodup := by
  show ((t.affected order oldPrefix).map Prod.fst).Nodup
  refine List.pairwise_map.mpr ?_
  exact (Maps.pairwise_inOrder (Maps.pairwise_toList t.nodes)).filter _

/-- **A subtree is rekeyed.** In a table whose maps are inverse to each other and that
knows no key under the new prefix, whatever order the nodes are visited in, the maps
stay inverse, the nodes under the old prefix and no others get the new one in its
place, no inode number comes or goes, the inodes named are those nodes, each once, and
another order gives the same table and names the same inodes. That neither of the
prefixes starts with the other is not needed for it. -/
theorem rekeyPrefix_subtree (t : InodeTable) (h : t.Paired) (oldPrefix newPrefix : Str)
    (hunused : t.Unused newPrefix) (order : List Nat) :
    (t.rekeyPrefix order oldPrefix newPrefix).2.Paired ∧
      (∀ i n, t.get i = some n → ∀ rest, n.key = oldPrefix ++ rest →
        (t.rekeyPrefix order oldPrefix newPrefix).2.get i =
          some { n with key := newPrefix ++ rest }) ∧
      (∀ i, (∀ n, t.get i = some n → ¬ oldPrefix <+: n.key) →
        (t.rekeyPrefix order oldPrefix newPrefix).2.get i = t.get i) ∧
      (t.rekeyPrefix order oldPrefix newPrefix).2.next = t.next ∧
      (∀ i, i ∈ (t.rekeyPrefix order oldPrefix newPrefix).1 ↔
        ∃ n, t.get i = some n ∧ oldPrefix <+: n.key) ∧
      (t.rekeyPrefix order oldPrefix newPrefix).1.Nodup ∧
      ∀ order', (t.rekeyPrefix order' oldPrefix newPrefix).2 =
          (t.rekeyPrefix order oldPrefix newPrefix).2 ∧
        (t.rekeyPrefix order' oldPrefix newPrefix).1.Perm
          (t.rekeyPrefix order oldPrefix newPrefix).1 := by
  have hpaired : ∀ order, (t.rekeyPrefix order oldPrefix newPrefix).2.Paired :=
    fun order => h.rekeyPrefix order (hunused.freeFor oldPrefix)
  refine ⟨hpaired order, ?_, ?_, next_rekeyPrefix t order oldPrefix newPrefix,
    fun i => mem_rekeyPrefix, nodup_rekeyPrefix t order oldPrefix newPrefix, fun order' => ⟨?_, ?_⟩⟩
  · intro i n hn rest hkey
    have hstarts : Str.startsWith oldPrefix n.key = true := by
      rw [hkey]
      exact decide_eq_true (List.prefix_append _ _)
    rw [get_rekeyPrefix, hn, Option.map_some, if_pos hstarts, hkey, List.drop_left]
  · intro i hother
    rw [get_rekeyPrefix]
    cases hn : t.get i with
    | none => rfl
    | some n =>
      have hnot : ¬ Str.startsWith oldPrefix n.key = true := fun hstarts =>
        hother n hn (of_decide_eq_true hstarts)
      rw [Option.map_some, if_neg hnot]
  · refine (hpaired order').ext (hpaired order) (fun i => ?_) ?_
    · rw [get_rekeyPrefix, get_rekeyPrefix]
    · rw [next_rekeyPrefix, next_rekeyPrefix]
  · refine (List.perm_ext_iff_of_nodup (nodup_rekeyPrefix t order' oldPrefix newPrefix)
      (nodup_rekeyPrefix t order oldPrefix newPrefix)).mpr fun i => ?_
    rw [mem_rekeyPrefix, mem_rekeyPrefix]

end InodeTable

namespace RekeySample

/-- A root with a directory `a/`, a file in it and one beside it. -/
def table : InodeTable :=
  (((InodeTable.new []).intern "a/".toList .dir rootInode).2.intern "a/x".toList .file 2).2.intern
    "ab".toList .file rootInode |>.2

theorem table_rooted : table.Rooted [] :=
  (((InodeTable.new_rooted []).intern List.nil_prefix .dir rootInode).intern List.nil_prefix
    .file 2).intern List.nil_prefix .file rootInode

theorem rekeyPrefix_table :
    (table.rekeyPrefix [3, 2] "a/".toList "c/".toList).1 = [3, 2] ∧
      ((table.rekeyPrefix [3, 2] "a/".toList "c/".toList).2.get 3).map Node.key =
        some "c/x".toList ∧
      (table.rekeyPrefix [3, 2] "a/".toList "c/".toList).2.Paired := by
  refine ⟨by decide +kernel, by decide +kernel,
    (InodeTable.rekeyPrefix_subtree table table_rooted.paired "a/".toList "c/".toList ?_ [3, 2]).1⟩
  intro k i hk
  -- the keys of the table, one after the other
  obtain ⟨n, hn, rfl⟩ := table_rooted.paired.byKey k i hk
  have hkeys : ∀ e ∈ table.nodes.toList, ¬ "c/".toList <+: e.2.key := by decide +kernel
  exact hkeys (i, n) (Std.ExtTreeMap.mem_toList_iff_getElem?_eq_some.mpr hn)

end RekeySample

end Rs5cmd
