import Rs5cmd.Mount.Inode

/-!
# The inode table keeps its two directions together

A key that is known leads to an inode with that key, and inode numbers are never
used twice. A key may have a second inode (a rename onto a directory that was
listed before leaves one), so the other direction does not hold.
-/

namespace Rs5cmd

namespace InodeTable

variable {t : InodeTable} {i j : Nat} {k key : Str} {n : Node}

/-- What every operation on the table keeps. -/
structure Wf (t : InodeTable) : Prop where
  byKey : ∀ k i, t.lookupKey k = some i → ∃ n, t.get i = some n ∧ n.key = k
  unused : ∀ i, t.next ≤ i → t.get i = none

theorem Wf.lt_next (h : t.Wf) (hn : t.get i = some n) : i < t.next := by
  by_contra hle
  exact absurd ((h.unused i (Nat.le_of_not_lt hle)).symm.trans hn) (by simp)

theorem new_wf (rootKey : Str) : (new rootKey).Wf where
  byKey k i h := by
    simp only [lookupKey, new, Maps.getElem?_insert_eq] at h
    split at h
    · rename_i heq
      obtain rfl := Option.some.inj h
      exact ⟨⟨rootKey, .dir, rootInode⟩, by simp [get, new], heq⟩
    · simp at h
  unused i h := by
    have hi : rootInode ≠ i := by
      simp only [new, rootInode] at h ⊢
      omega
    simp [get, new, Maps.getElem?_insert_of_ne hi]

/-! ## `intern` -/

/-- Interning finds the inode of the key, or takes the next number for it. -/
theorem intern_cases (t : InodeTable) (key : Str) (kind : NodeKind) (parent : Nat) :
    (∃ i, t.lookupKey key = some i ∧ t.intern key kind parent = (i, t)) ∨
      (t.lookupKey key = none ∧ t.intern key kind parent =
        (t.next, ⟨t.nodes.insert t.next ⟨key, kind, parent⟩, t.byKey.insert key t.next, t.next + 1⟩)) := by
  unfold intern lookupKey
  cases t.byKey[key]? with
  | some i => exact Or.inl ⟨i, rfl, rfl⟩
  | none => exact Or.inr ⟨rfl, rfl⟩

theorem Wf.intern (h : t.Wf) (key : Str) (kind : NodeKind) (parent : Nat) :
    (t.intern key kind parent).2.Wf := by
  rcases intern_cases t key kind parent with ⟨i, -, heq⟩ | ⟨-, heq⟩
  · rw [heq]
    exact h
  · rw [heq]
    refine ⟨fun k i hk => ?_, fun i hi => ?_⟩
    · simp only [lookupKey, Maps.getElem?_insert_eq] at hk
      simp only [get, Maps.getElem?_insert_eq]
      split at hk
      · rename_i hkey
        obtain rfl := Option.some.inj hk
        exact ⟨_, if_pos rfl, hkey⟩
      · obtain ⟨n, hn, hnk⟩ := h.byKey k i hk
        exact ⟨n, by rw [if_neg (Nat.ne_of_gt (h.lt_next hn))]; exact hn, hnk⟩
    · have hlt : t.next + 1 ≤ i := hi
      simp only [get]
      rw [Maps.getElem?_insert_of_ne (by omega)]
      exact h.unused i (by omega)

/-- Inodes that exist are not touched. -/
theorem get_intern_of_lt (t : InodeTable) (key : Str) (kind : NodeKind) (parent : Nat)
    (hj : j < t.next) : (t.intern key kind parent).2.get j = t.get j := by
  rcases intern_cases t key kind parent with ⟨i, -, heq⟩ | ⟨-, heq⟩
  · rw [heq]
  · rw [heq]
    exact Maps.getElem?_insert_of_ne (Nat.ne_of_gt hj)

theorem next_le_intern (t : InodeTable) (key : Str) (kind : NodeKind) (parent : Nat) :
    t.next ≤ (t.intern key kind parent).2.next := by
  rcases intern_cases t key kind parent with ⟨i, -, heq⟩ | ⟨-, heq⟩
  · rw [heq]
  · rw [heq]
    exact Nat.le_succ _

/-- The interned inode has the key. -/
theorem Wf.get_intern (h : t.Wf) (key : Str) (kind : NodeKind) (parent : Nat) :
    ∃ n, (t.intern key kind parent).2.get (t.intern key kind parent).1 = some n ∧ n.key = key := by
  rcases intern_cases t key kind parent with ⟨i, hi, heq⟩ | ⟨-, heq⟩
  · rw [heq]
    exact h.byKey key i hi
  · rw [heq]
    exact ⟨⟨key, kind, parent⟩, Std.ExtTreeMap.getElem?_insert_self, rfl⟩

/-! ## `forget` -/

theorem get_forget (t : InodeTable) (i j : Nat) :
    (t.forget i).get j = if i = j then none else t.get j := by
  unfold forget
  cases hi : t.nodes[i]? with
  | none =>
    by_cases hij : i = j
    · subst hij
      rw [if_pos rfl]
      exact hi
    · rw [if_neg hij]
  | some n => exact Maps.getElem?_erase_eq

theorem next_forget (t : InodeTable) (i : Nat) : (t.forget i).next = t.next := by
  unfold forget
  split
  · rfl
  · rfl

theorem Wf.forget (h : t.Wf) (i : Nat) : (t.forget i).Wf := by
  refine ⟨fun k j hk => ?_, fun j hj => ?_⟩
  · cases hi : t.nodes[i]? with
    | none =>
      simp only [InodeTable.forget, hi] at hk ⊢
      exact h.byKey k j hk
    | some n =>
      simp only [InodeTable.forget, hi, lookupKey, Maps.getElem?_erase_eq] at hk
      split at hk
      · cases hk
      · rename_i hne
        obtain ⟨m, hm, hmk⟩ := h.byKey k j hk
        -- the forgotten inode has another key
        have hij : i ≠ j := by
          rintro rfl
          obtain rfl := Option.some.inj (hi.symm.trans hm)
          exact hne hmk
        exact ⟨m, by rw [get_forget, if_neg hij]; exact hm, hmk⟩
  · rw [next_forget] at hj
    rw [get_forget, h.unused j hj]
    exact ite_self none

/-! ## `rekey` -/

theorem get_rekey (t : InodeTable) (i : Nat) (newKey : Str) (j : Nat) :
    (t.rekey i newKey).get j =
      if i = j then (t.get j).map fun n => { n with key := newKey } else t.get j := by
  unfold rekey
  cases hi : t.nodes[i]? with
  | none =>
    by_cases hij : i = j
    · subst hij
      rw [if_pos rfl]
      simp [get, hi]
    · rw [if_neg hij]
  | some n =>
    by_cases hij : i = j
    · subst hij
      simp [get, hi]
    · rw [if_neg hij]
      exact Maps.getElem?_insert_of_ne hij

theorem next_rekey (t : InodeTable) (i : Nat) (newKey : Str) : (t.rekey i newKey).next = t.next := by
  unfold rekey
  split
  · rfl
  · rfl

theorem Wf.rekey (h : t.Wf) (i : Nat) (newKey : Str) : (t.rekey i newKey).Wf := by
  refine ⟨fun k j hk => ?_, fun j hj => ?_⟩
  · cases hi : t.nodes[i]? with
    | none =>
      simp only [InodeTable.rekey, hi] at hk ⊢
      exact h.byKey k j hk
    | some n =>
      simp only [InodeTable.rekey, hi, lookupKey, Maps.getElem?_insert_eq, Maps.getElem?_erase_eq] at hk
      split at hk
      · rename_i hkey
        obtain rfl := Option.some.inj hk
        refine ⟨{ n with key := newKey }, ?_, hkey⟩
        rw [get_rekey, if_pos rfl, get, hi]
        rfl
      · split at hk
        · cases hk
        · rename_i hne
          obtain ⟨m, hm, hmk⟩ := h.byKey k j hk
          have hij : i ≠ j := by
            rintro rfl
            obtain rfl := Option.some.inj (hi.symm.trans hm)
            exact hne hmk
          exact ⟨m, by rw [get_rekey, if_neg hij]; exact hm, hmk⟩
  · rw [next_rekey] at hj
    rw [get_rekey, h.unused j hj]
    exact ite_self none

/-! ## `rekeyPrefix` -/

/-- The loop over the affected nodes, whose keys are those of `keyOf`. -/
theorem get_foldl_rekey (f : Str → Str) (keyOf : Nat → Str) (l : List (Nat × Node))
    (hl : ∀ e ∈ l, e.2.key = keyOf e.1) (t : InodeTable) (j : Nat) :
    (l.foldl (fun t e => t.rekey e.1 (f e.2.key)) t).get j =
      if j ∈ l.map Prod.fst then (t.get j).map fun n => { n with key := f (keyOf j) } else t.get j := by
  induction l generalizing t with
  | nil => simp
  | cons e l ih =>
    rw [List.foldl_cons, ih fun a ha => hl a (List.mem_cons_of_mem e ha), get_rekey,
      hl e List.mem_cons_self]
    simp only [List.map_cons, List.mem_cons]
    by_cases he : e.1 = j
    · subst he
      cases hj : t.get e.1 with
      | none => simp
      | some n => simp
    · have hne : ¬ j = e.1 := fun h => he h.symm
      simp only [hne, false_or, if_neg he]

theorem mem_affected {order : List Nat} {oldPrefix : Str} {e : Nat × Node} :
    e ∈ t.affected order oldPrefix ↔ t.get e.1 = some e.2 ∧ Str.startsWith oldPrefix e.2.key := by
  unfold affected get
  rw [List.mem_filter, Maps.mem_inOrder_toList]

/-- Each node under the old prefix, and no other, gets the new one. -/
theorem get_rekeyPrefix (t : InodeTable) (order : List Nat) (oldPrefix newPrefix : Str) (j : Nat) :
    (t.rekeyPrefix order oldPrefix newPrefix).2.get j =
      (t.get j).map fun n => if Str.startsWith oldPrefix n.key then
        { n with key := newPrefix ++ n.key.drop oldPrefix.length } else n := by
  have hl : ∀ e ∈ t.affected order oldPrefix, e.2.key = ((t.get e.1).map Node.key).getD [] := by
    intro e he
    rw [(mem_affected.mp he).1]
    rfl
  have hget := get_foldl_rekey (fun k => newPrefix ++ k.drop oldPrefix.length)
    (fun i => ((t.get i).map Node.key).getD []) _ hl t j
  refine Eq.trans hget ?_
  cases hj : t.get j with
  | none => simp
  | some n =>
    have hmem : j ∈ (t.affected order oldPrefix).map Prod.fst ↔ Str.startsWith oldPrefix n.key := by
      constructor
      · intro hmem
        obtain ⟨e, he, rfl⟩ := List.mem_map.mp hmem
        obtain ⟨hn, hstarts⟩ := mem_affected.mp he
        rw [Option.some.inj (hj.symm.trans hn)]
        exact hstarts
      · intro hstarts
        exact List.mem_map.mpr ⟨(j, n), mem_affected.mpr ⟨hj, hstarts⟩, rfl⟩
    by_cases hstarts : Str.startsWith oldPrefix n.key = true
    · rw [if_pos (hmem.mpr hstarts)]
      simp [hstarts]
    · rw [if_neg (fun h => hstarts (hmem.mp h))]
      simp [hstarts]

theorem Wf.foldl_rekey (h : t.Wf) (f : Str → Str) (l : List (Nat × Node)) :
    (l.foldl (fun t e => t.rekey e.1 (f e.2.key)) t).Wf := by
  induction l generalizing t with
  | nil => exact h
  | cons e l ih => exact ih (h.rekey e.1 _)

theorem Wf.rekeyPrefix (h : t.Wf) (order : List Nat) (oldPrefix newPrefix : Str) :
    (t.rekeyPrefix order oldPrefix newPrefix).2.Wf :=
  h.foldl_rekey (fun k => newPrefix ++ k.drop oldPrefix.length) _

theorem next_foldl_rekey (f : Str → Str) (l : List (Nat × Node)) (t : InodeTable) :
    (l.foldl (fun t e => t.rekey e.1 (f e.2.key)) t).next = t.next := by
  induction l generalizing t with
  | nil => rfl
  | cons e l ih => exact (ih _).trans (next_rekey t e.1 _)

theorem next_rekeyPrefix (t : InodeTable) (order : List Nat) (oldPrefix newPrefix : Str) :
    (t.rekeyPrefix order oldPrefix newPrefix).2.next = t.next :=
  next_foldl_rekey (fun k => newPrefix ++ k.drop oldPrefix.length) _ t

end InodeTable

end Rs5cmd
