import Mathlib.Data.List.Induction
import Mathlib.Data.List.Nodup
import Mathlib.Order.Lattice

/-!
# Grouping

Lists collected under keys that are kept in order, and a list cut into chunks of one size.

## Results

* `mem_collect`          — what is collected under a key are the values with that key.
* `flatten_chunks`       — the chunks make up the list.
* `mem_large_chunk_iff`  — every element but a last one left over is in a chunk of two or more.
-/

-- ---------------------------------------------------------------------------
-- Values under keys
-- ---------------------------------------------------------------------------

section Collect

variable {κ α β : Type} [LinearOrder κ]

/-- Push a value under a key, keys in ascending order. -/
def pushAt (k : κ) (a : α) : List (κ × List α) → List (κ × List α)
  | [] => [(k, [a])]
  | (k', as) :: rest =>
    if k < k' then (k, [a]) :: (k', as) :: rest
    else if k = k' then (k', as ++ [a]) :: rest
    else (k', as) :: pushAt k a rest

/-- Keys strictly ascend. -/
def KeysAscend (m : List (κ × List α)) : Prop := m.Pairwise fun e f => e.1 < f.1

theorem mem_pushAt {k k' : κ} {a : α} {as' : List α} {m : List (κ × List α)}
    (hAsc : KeysAscend m) :
    (k', as') ∈ pushAt k a m ↔
      (k' ≠ k ∧ (k', as') ∈ m) ∨
      (k' = k ∧ ((∃ as, (k, as) ∈ m ∧ as' = as ++ [a]) ∨
        ((∀ as, (k, as) ∉ m) ∧ as' = [a]))) := by
  induction m with
  | nil =>
    simp only [pushAt, List.mem_singleton, Prod.mk.injEq, List.not_mem_nil]
    tauto
  | cons e rest ih =>
    obtain ⟨u, us⟩ := e
    obtain ⟨hHead, hRest⟩ := List.pairwise_cons.mp hAsc
    have hAbsent : ∀ v, v ≤ u → ∀ as, (v, as) ∉ rest := fun v hv as hMem =>
      absurd (hHead _ hMem) (not_lt.mpr hv)
    simp only [pushAt]
    rcases lt_trichotomy k u with hlt | rfl | hgt
    · have hNone := hAbsent k hlt.le
      rw [if_pos hlt]
      simp only [List.mem_cons, Prod.mk.injEq]
      constructor
      · rintro (⟨rfl, rfl⟩ | ⟨rfl, rfl⟩ | hMem)
        · exact .inr ⟨rfl, .inr ⟨fun as h => h.elim (fun h => hlt.ne h.1) (hNone as), rfl⟩⟩
        · exact .inl ⟨hlt.ne', .inl ⟨rfl, rfl⟩⟩
        · refine .inl ⟨?_, .inr hMem⟩
          rintro rfl
          exact hNone _ hMem
      · rintro (⟨-, h⟩ | ⟨rfl, ⟨as, h, -⟩ | ⟨-, rfl⟩⟩)
        · exact .inr h
        · exact (h.elim (fun h => hlt.ne h.1) (hNone as)).elim
        · exact .inl ⟨rfl, rfl⟩
    · have hNone := hAbsent k le_rfl
      rw [if_neg (lt_irrefl k), if_pos rfl]
      simp only [List.mem_cons, Prod.mk.injEq]
      constructor
      · rintro (⟨rfl, rfl⟩ | hMem)
        · exact .inr ⟨rfl, .inl ⟨us, .inl ⟨trivial, rfl⟩, rfl⟩⟩
        · refine .inl ⟨?_, .inr hMem⟩
          rintro rfl
          exact hNone _ hMem
      · rintro (⟨hNe, h⟩ | ⟨rfl, ⟨as, h, rfl⟩ | ⟨h, -⟩⟩)
        · exact .inr (h.resolve_left fun h => hNe h.1)
        · rcases h with ⟨-, rfl⟩ | h
          · exact .inl ⟨rfl, rfl⟩
          · exact (hNone as h).elim
        · exact (h us (.inl ⟨trivial, rfl⟩)).elim
    · rw [if_neg hgt.le.not_gt, if_neg hgt.ne']
      simp only [List.mem_cons, Prod.mk.injEq, ih hRest]
      constructor
      · rintro (⟨rfl, rfl⟩ | ⟨hNe, h⟩ | ⟨rfl, ⟨as, h, rfl⟩ | ⟨h, rfl⟩⟩)
        · exact .inl ⟨hgt.ne, .inl ⟨rfl, rfl⟩⟩
        · exact .inl ⟨hNe, .inr h⟩
        · exact .inr ⟨rfl, .inl ⟨as, .inr h, rfl⟩⟩
        · exact .inr ⟨rfl, .inr ⟨fun as h' => h'.elim (fun h' => hgt.ne' h'.1) (h as), rfl⟩⟩
      · rintro (⟨hNe, h | h⟩ | ⟨rfl, ⟨as, h, rfl⟩ | ⟨h, rfl⟩⟩)
        · exact .inl h
        · exact .inr (.inl ⟨hNe, h⟩)
        · exact .inr (.inr ⟨rfl, .inl ⟨as, h.resolve_left fun h => hgt.ne' h.1, rfl⟩⟩)
        · exact .inr (.inr ⟨rfl, .inr ⟨fun as h' => h as (.inr h'), rfl⟩⟩)

theorem keysAscend_pushAt {m : List (κ × List α)} (hAsc : KeysAscend m) (k : κ) (a : α) :
    KeysAscend (pushAt k a m) := by
  induction m with
  | nil => exact List.pairwise_singleton _ _
  | cons e rest ih =>
    obtain ⟨u, us⟩ := e
    obtain ⟨hHead, hRest⟩ := List.pairwise_cons.mp hAsc
    simp only [pushAt]
    split_ifs with hlt hEq
    · exact List.pairwise_cons.mpr ⟨List.forall_mem_cons.mpr
        ⟨hlt, fun f hf => lt_trans hlt (hHead f hf)⟩, hAsc⟩
    · exact List.pairwise_cons.mpr ⟨hHead, hRest⟩
    · refine List.pairwise_cons.mpr ⟨fun f hf => ?_, ih hRest⟩
      obtain ⟨k', as'⟩ := f
      rcases (mem_pushAt hRest).mp hf with ⟨-, hMem⟩ | ⟨rfl, -⟩
      · exact hHead _ hMem
      · exact lt_of_le_of_ne (not_lt.mp hlt) (Ne.symm hEq)

/-- The values of a list collected under their keys. -/
def collect (key : β → κ) (val : β → α) (l : List β) : List (κ × List α) :=
  l.foldl (fun m b => pushAt (key b) (val b) m) []

theorem collect_concat (key : β → κ) (val : β → α) (l : List β) (b : β) :
    collect key val (l ++ [b]) = pushAt (key b) (val b) (collect key val l) := by
  simp [collect]

theorem keysAscend_collect (key : β → κ) (val : β → α) (l : List β) :
    KeysAscend (collect key val l) := by
  induction l using List.reverseRecOn with
  | nil => exact List.Pairwise.nil
  | append_singleton l b ih =>
    rw [collect_concat]
    exact keysAscend_pushAt ih _ _

/-- Under a key are the values of the elements that have it, in order. -/
theorem mem_collect {key : β → κ} {val : β → α} {l : List β} {k : κ} {as : List α} :
    (k, as) ∈ collect key val l ↔ as = (l.filter fun b => key b = k).map val ∧ as ≠ [] := by
  induction l using List.reverseRecOn generalizing k as with
  | nil => simp [collect]
  | append_singleton l b ih =>
    rw [collect_concat, mem_pushAt (keysAscend_collect key val l), ih, List.filter_append,
      List.map_append]
    by_cases hKey : k = key b
    · subst hKey
      simp only [ih, List.filter_cons, List.filter_nil, decide_true, if_true, List.map_cons,
        List.map_nil, ne_eq, not_true, false_and, false_or, true_and]
      constructor
      · rintro (⟨as', ⟨rfl, -⟩, rfl⟩ | ⟨hNone, rfl⟩)
        · exact ⟨rfl, by simp⟩
        · have hNil : (l.filter fun c => key c = key b).map val = [] := by
            by_contra hNe
            exact hNone _ ⟨rfl, hNe⟩
          rw [hNil]
          exact ⟨rfl, by simp⟩
      · rintro ⟨rfl, -⟩
        by_cases hNil : (l.filter fun c => key c = key b).map val = []
        · refine .inr ⟨fun as' h => h.2 (h.1.trans hNil), ?_⟩
          rw [hNil, List.nil_append]
        · exact .inl ⟨_, ⟨rfl, hNil⟩, rfl⟩
    · have hNe : key b ≠ k := fun h => hKey h.symm
      simp [hKey, hNe]

end Collect

-- ---------------------------------------------------------------------------
-- Chunks
-- ---------------------------------------------------------------------------

section Chunks

variable {α : Type}

/-- `chunks`, with `fuel` bounding their number. -/
def chunksFuel (n : Nat) : Nat → List α → List (List α)
  | 0, _ => []
  | fuel + 1, l =>
    if l.isEmpty then [] else l.take n :: chunksFuel n fuel (l.drop n)

/-- `chunks`: runs of `n ≥ 1` elements, the last one with what is left over. -/
def chunks (n : Nat) (l : List α) : List (List α) := chunksFuel n l.length l

/-- What comes first and what is left behind it. -/
theorem chunksFuel_of_ne_nil {n fuel : Nat} {l : List α} (h : l ≠ []) :
    chunksFuel n (fuel + 1) l = l.take n :: chunksFuel n fuel (l.drop n) := by
  have hIsEmpty : l.isEmpty = false := by simpa using h
  rw [chunksFuel, hIsEmpty, if_neg Bool.false_ne_true]

theorem length_drop_le_fuel {n fuel : Nat} {l : List α} (h : l ≠ []) (hPos : 0 < n)
    (hFuel : l.length ≤ fuel + 1) : (l.drop n).length ≤ fuel := by
  have := List.length_pos_iff.mpr h
  rw [List.length_drop]
  omega

/-- Fuel for every element is enough. -/
theorem chunksFuel_eq {n fuel : Nat} (hn : 0 < n) {l : List α} (hFuel : l.length ≤ fuel) :
    chunksFuel n fuel l = chunks n l := by
  unfold chunks
  induction hLen : l.length using Nat.strongRecOn generalizing fuel l with
  | ind len ih =>
    subst hLen
    by_cases hl : l = []
    · subst hl
      cases fuel <;> rfl
    · obtain ⟨k, hk⟩ := Nat.exists_eq_succ_of_ne_zero (Nat.ne_of_gt (List.length_pos_iff.mpr hl))
      obtain ⟨m, rfl⟩ := Nat.exists_eq_succ_of_ne_zero (Nat.ne_zero_of_lt (hk ▸ hFuel))
      have hLess : (l.drop n).length < l.length := by
        rw [List.length_drop]
        omega
      rw [hk, chunksFuel_of_ne_nil hl, chunksFuel_of_ne_nil hl,
        ih _ hLess (length_drop_le_fuel hl hn hFuel) rfl,
        ih _ hLess (length_drop_le_fuel hl hn hk.le) rfl]

theorem chunks_of_ne_nil {n : Nat} (hn : 0 < n) {l : List α} (h : l ≠ []) :
    chunks n l = l.take n :: chunks n (l.drop n) := by
  have hFuel := chunksFuel_eq hn (Nat.le_succ l.length)
  rw [← hFuel, chunksFuel_of_ne_nil h,
    chunksFuel_eq hn (by rw [List.length_drop]; exact Nat.sub_le _ _)]

/-- An induction over the chunks of a list. -/
theorem chunks_induction {n : Nat} (hn : 0 < n) {P : List α → Prop} (nil : P [])
    (cons : ∀ l, l ≠ [] → P (l.drop n) → P l) (l : List α) : P l := by
  induction hLen : l.length using Nat.strongRecOn generalizing l with
  | ind len ih =>
    subst hLen
    by_cases hl : l = []
    · exact hl ▸ nil
    · have hPos := List.length_pos_iff.mpr hl
      exact cons l hl (ih _ (by rw [List.length_drop]; omega) _ rfl)

theorem flatten_chunks {n : Nat} (hn : 0 < n) (l : List α) : (chunks n l).flatten = l := by
  induction l using chunks_induction hn with
  | nil => rfl
  | cons l hl ih => rw [chunks_of_ne_nil hn hl, List.flatten_cons, ih, List.take_append_drop]

theorem length_le_of_mem_chunks {n : Nat} (hn : 0 < n) {l c : List α} (h : c ∈ chunks n l) :
    c.length ≤ n := by
  induction l using chunks_induction hn with
  | nil => cases h
  | cons l hl ih =>
    rw [chunks_of_ne_nil hn hl] at h
    rcases List.mem_cons.mp h with rfl | h
    · rw [List.length_take]
      exact Nat.min_le_left _ _
    · exact ih h

/-- Every element is in a chunk of two or more, but for a last one that is left over. -/
theorem mem_large_chunk_iff {n : Nat} (hn : 2 ≤ n) {l : List α} (hNodup : l.Nodup) {a : α}
    (ha : a ∈ l) :
    (∃ c ∈ chunks n l, 2 ≤ c.length ∧ a ∈ c) ↔ ¬(l.getLast? = some a ∧ l.length % n = 1) := by
  induction hLen : l.length using Nat.strongRecOn generalizing l with
  | ind len ih =>
    subst hLen
    rw [chunks_of_ne_nil (by omega) (List.ne_nil_of_mem ha)]
    by_cases hShort : l.length ≤ n
    · have hDrop : l.drop n = [] := List.drop_eq_nil_of_le hShort
      have hTake : l.take n = l := List.take_of_length_le hShort
      have hNil : chunks n ([] : List α) = [] := rfl
      rw [hDrop, hTake, hNil]
      simp only [List.mem_singleton, exists_eq_left, ha, and_true]
      have hPos := List.length_pos_of_mem ha
      rcases Nat.lt_or_ge 1 l.length with hTwo | hOne
      · have hMod : l.length % n ≠ 1 := by
          rcases Nat.lt_or_eq_of_le hShort with hlt | heq
          · rw [Nat.mod_eq_of_lt hlt]
            omega
          · rw [heq, Nat.mod_self]
            omega
        simp only [hMod, and_false, not_false_eq_true, iff_true]
        omega
      · obtain ⟨b, hb⟩ := List.length_eq_one_iff.mp (by omega : l.length = 1)
        subst hb
        obtain rfl := List.mem_singleton.mp ha
        simp [Nat.mod_eq_of_lt hn]
    · have hSplit : l = l.take n ++ l.drop n := (List.take_append_drop n l).symm
      have hDropNe : l.drop n ≠ [] := by
        rw [Ne, List.drop_eq_nil_iff]
        omega
      have hLast : l.getLast? = (l.drop n).getLast? := by
        conv_lhs => rw [hSplit]
        rw [List.getLast?_append_of_ne_nil _ hDropNe]
      have hMod : l.length % n = (l.drop n).length % n := by
        rw [List.length_drop, ← Nat.mod_eq_sub_mod (by omega)]
      have hDisj : ∀ b ∈ l.take n, b ∉ l.drop n := fun b hb hb' => by
        rw [hSplit] at hNodup
        exact (List.nodup_append.mp hNodup).2.2 b hb b hb' rfl
      rcases List.mem_append.mp (hSplit ▸ ha) with hFront | hBack
      · have hNotLast : (l.drop n).getLast? ≠ some a := fun h =>
          hDisj a hFront (List.mem_of_getLast? h)
        rw [hLast]
        simp only [hNotLast, false_and, not_false_eq_true, iff_true]
        refine ⟨_, List.mem_cons_self .., ?_, hFront⟩
        rw [List.length_take]
        omega
      · have hFront : a ∉ l.take n := fun h => hDisj a h hBack
        rw [hLast, hMod, ← ih (l.drop n).length (by rw [List.length_drop]; omega)
          (hNodup.sublist (List.drop_sublist n l)) hBack rfl]
        simp [hFront]

end Chunks
