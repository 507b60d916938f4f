import Mathlib.Data.Set.Insert
import Mathlib.Logic.Function.Basic

/-!
# What a power loss leaves

A directory of files on a disk that keeps some changes in memory only. The contents of a file are
durable once it was synced after its last write. A change of the directory is durable once the
directory was synced; until then a power loss may keep or lose every change by itself.

A name is certain of some contents when every power loss leaves it with one of these. The contents
of a file under another name are nothing to it, and so are the operations on other names.

## Results

* `Disk.Certain.survives`       — what a power loss leaves of a name that is certain;
* `Disk.Certain.exec`           — operations on other names, and the sync of the directory;
* `Disk.Certain.rename_onto`    — a synced file moved onto the name;
* `Disk.Synced.certain`         — the sync of the directory makes synced files certain;
* `Disk.survives_exec`          — the last operation may be undone;
* `Disk.survives_rename_remove` — or the last but one, where the last one is a removal.
-/

/-- A change of the directory; a file is known by its number. -/
inductive DirChange (N : Type)
  | link (n : N) (i : Nat)
  | unlink (n : N)
  | move (a b : N) (i : Nat)

/-- The entries that were synced last, the changes since, the contents of the files and whether
these are durable, and the first number not in use. -/
structure Disk (N D : Type) where
  base : N → Option Nat
  pending : List (DirChange N)
  contents : Nat → D
  synced : Nat → Bool
  next : Nat

/-- Operations on the files and on the directory. -/
inductive DiskOp (N D : Type)
  | create (n : N) (d : D)
  | write (n : N) (d : D)
  | sync (n : N)
  | rename (a b : N)
  | remove (n : N)
  | syncDir

variable {N D : Type}

/-- The names whose entry or contents an operation changes. -/
def DiskOp.touches : DiskOp N D → List N
  | create n _ | write n _ | sync n | remove n => [n]
  | rename a b => [a, b]
  | syncDir => []

variable [DecidableEq N]

namespace DirChange

/-- What the change makes of the entry of a name. -/
def on (c : DirChange N) (n : N) : Option (Option Nat) :=
  match c with
  | link m i => if n = m then some (some i) else none
  | unlink m => if n = m then some none else none
  | move a b i => if n = b then some (some i) else if n = a then some none else none

/-- The entries after the change. -/
def apply (e : N → Option Nat) (c : DirChange N) (n : N) : Option Nat :=
  (c.on n).getD (e n)

variable {e : N → Option Nat} {n m a b : N} {i j : Nat}

theorem on_link : (link m i).on n = if n = m then some (some i) else none := rfl

theorem on_unlink : (unlink m : DirChange N).on n = if n = m then some none else none := rfl

theorem on_move :
    (move a b i).on n = if n = b then some (some i) else if n = a then some none else none := rfl

theorem apply_link : apply e (.link m i) n = if n = m then some i else e n := by
  rw [apply, on_link]
  split <;> rfl

theorem apply_unlink : apply e (.unlink m) n = if n = m then none else e n := by
  rw [apply, on_unlink]
  split <;> rfl

theorem apply_move :
    apply e (.move a b i) n = if n = b then some i else if n = a then none else e n := by
  rw [apply, on_move]
  split
  · rfl
  · split <;> rfl

/-- A change links no other file than its own. -/
theorem eq_of_on_link (h : (link m j).on n = some (some i)) : i = j := by
  rw [on_link] at h
  grind

theorem eq_of_on_move (h : (move a b j).on n = some (some i)) : i = j := by
  rw [on_move] at h
  grind

theorem on_unlink_ne : (unlink m).on n ≠ some (some i) := by
  rw [on_unlink]
  grind

/-- After some changes a name has the entry that one of them gave it, or its own. -/
theorem foldl_apply_mem (cs : List (DirChange N)) (e : N → Option Nat) (n : N) :
    cs.foldl apply e n ∈ e n :: cs.filterMap fun c => c.on n := by
  induction cs generalizing e with
  | nil => exact List.mem_singleton_self _
  | cons c cs ih =>
    have h := ih (apply e c)
    rw [List.foldl_cons, List.filterMap_cons]
    unfold apply at h ⊢
    cases hOn : c.on n with
    | none =>
      rw [hOn] at h
      exact h
    | some x =>
      rw [hOn] at h
      exact List.mem_cons_of_mem _ h

end DirChange

namespace Disk

/-- A disk all of whose files are durable. -/
def settled (base : N → Option Nat) (contents : Nat → D) (next : Nat) : Disk N D :=
  ⟨base, [], contents, fun _ => true, next⟩

/-- The entries when these changes are made. -/
def after (K : Disk N D) (cs : List (DirChange N)) : N → Option Nat :=
  cs.foldl DirChange.apply K.base

/-- The entries as processes see them. -/
def entries (K : Disk N D) : N → Option Nat := K.after K.pending

/-- The contents of a file as processes see them. -/
def lookup (K : Disk N D) (n : N) : Option D := (K.entries n).map K.contents

/-- One more change of the directory. -/
def log (K : Disk N D) (c : DirChange N) : Disk N D := { K with pending := K.pending ++ [c] }

/-- New contents of a file. -/
def put (K : Disk N D) (i : Nat) (d : D) : Disk N D :=
  { K with
    contents := Function.update K.contents i d
    synced := Function.update K.synced i false }

/-- An empty file, or one that exists created anew in place. -/
def create (K : Disk N D) (n : N) (d : D) : Disk N D :=
  match K.entries n with
  | some i => K.put i d
  | none => { (K.put K.next d).log (.link n K.next) with next := K.next + 1 }

def write (K : Disk N D) (n : N) (d : D) : Disk N D :=
  match K.entries n with
  | some i => K.put i d
  | none => K

def sync (K : Disk N D) (n : N) : Disk N D :=
  match K.entries n with
  | some i => { K with synced := Function.update K.synced i true }
  | none => K

def rename (K : Disk N D) (a b : N) : Disk N D :=
  match K.entries a with
  | some i => K.log (.move a b i)
  | none => K

def remove (K : Disk N D) (n : N) : Disk N D :=
  match K.entries n with
  | some _ => K.log (.unlink n)
  | none => K

def syncDir (K : Disk N D) : Disk N D := { K with base := K.entries, pending := [] }

/-- Execute one operation. -/
def exec (K : Disk N D) : DiskOp N D → Disk N D
  | .create n d => K.create n d
  | .write n d => K.write n d
  | .sync n => K.sync n
  | .rename a b => K.rename a b
  | .remove n => K.remove n
  | .syncDir => K.syncDir

/-- A power loss may leave the directory `d`: it keeps some of the changes in their order, and of
a file that is not durable it leaves anything. -/
def Survives (K : Disk N D) (d : N → Option D) : Prop :=
  ∃ kept, List.Sublist kept K.pending ∧ ∃ contents : Nat → D,
    (∀ i, K.synced i = true → contents i = K.contents i) ∧
      ∀ n, d n = (K.after kept n).map contents

/-- The entry of the name waits to be durable. -/
def Unsettled (K : Disk N D) (n : N) : Prop := ∃ c ∈ K.pending, (c.on n).isSome

instance (K : Disk N D) (n : N) : Decidable (K.Unsettled n) :=
  inferInstanceAs (Decidable (∃ c ∈ K.pending, (c.on n).isSome))

/-- The entries that the name may have after a power loss. -/
def possible (K : Disk N D) (n : N) : List (Option Nat) :=
  K.base n :: K.pending.filterMap fun c => c.on n

/-- No file has two names, and the numbers from `next` on are not in use. -/
structure Sound (K : Disk N D) : Prop where
  inj : ∀ n m i, K.entries n = some i → K.entries m = some i → n = m
  lt_next : ∀ n i, some i ∈ K.possible n → i < K.next

/-- The contents under the name are durable. -/
def Synced (K : Disk N D) (n : N) : Prop := ∀ i, K.entries n = some i → K.synced i = true

/-- Every power loss leaves the name with contents in `V`, and no other name can change that. -/
structure Certain (K : Disk N D) (n : N) (V : Set (Option D)) : Prop where
  durable : ∀ x ∈ K.possible n, x.map K.contents ∈ V ∧ ∀ i, x = some i → K.synced i = true
  own : ∀ i, some i ∈ K.possible n → ∀ m, K.entries m = some i → m = n

variable {K : Disk N D} {n m : N} {V W : Set (Option D)}

-- ---------------------------------------------------------------------------
-- Entries
-- ---------------------------------------------------------------------------

theorem after_mem_possible {kept : List (DirChange N)} (h : List.Sublist kept K.pending) (n : N) :
    K.after kept n ∈ K.possible n :=
  List.cons_subset_cons _ (h.filterMap _).subset (DirChange.foldl_apply_mem kept K.base n)

theorem entries_mem_possible (K : Disk N D) (n : N) : K.entries n ∈ K.possible n :=
  after_mem_possible (List.Sublist.refl _) n

theorem entries_log (c : DirChange N) : (K.log c).entries = DirChange.apply K.entries c := by
  unfold entries after log
  rw [List.foldl_append, List.foldl_cons, List.foldl_nil]

theorem mem_possible_log {c : DirChange N} {x : Option Nat} :
    x ∈ (K.log c).possible n ↔ x ∈ K.possible n ∨ c.on n = some x := by
  unfold possible log
  simp [List.filterMap_append, List.filterMap_cons, or_assoc]
  cases c.on n <;> simp [eq_comm]

theorem entries_put (i : Nat) (d : D) : (K.put i d).entries = K.entries := rfl

omit [DecidableEq N] in
theorem contents_put_of_ne {i j : Nat} (h : j ≠ i) (d : D) :
    (K.put i d).contents j = K.contents j := Function.update_of_ne h _ _

omit [DecidableEq N] in
theorem synced_put_of_ne {i j : Nat} (h : j ≠ i) (d : D) :
    (K.put i d).synced j = K.synced j := Function.update_of_ne h _ _

theorem Sound.entries_lt (hK : K.Sound) {i : Nat} (h : K.entries n = some i) : i < K.next :=
  hK.lt_next n i (h ▸ K.entries_mem_possible n)

/-- A file that is new is no file of any name. -/
theorem Sound.next_not_mem (hK : K.Sound) (n : N) : some K.next ∉ K.possible n := fun h =>
  Nat.lt_irrefl _ (hK.lt_next n _ h)

-- ---------------------------------------------------------------------------
-- Sound disks
-- ---------------------------------------------------------------------------

theorem Sound.put (hK : K.Sound) (i : Nat) (d : D) : (K.put i d).Sound := ⟨hK.inj, hK.lt_next⟩

omit [DecidableEq N] in
theorem sound_settled [DecidableEq N] {base : N → Option Nat} {contents : Nat → D} {next : Nat}
    (hInj : ∀ n m i, base n = some i → base m = some i → n = m)
    (hLt : ∀ n i, base n = some i → i < next) : (settled base contents next).Sound :=
  ⟨hInj, fun n i h => hLt n i (List.mem_singleton.mp h).symm⟩

/-- Operations keep a disk sound. -/
theorem Sound.exec (hK : K.Sound) (o : DiskOp N D) : (K.exec o).Sound := by
  cases o with
  | create n d =>
    change (K.create n d).Sound
    unfold Disk.create
    split
    · exact hK.put _ d
    · have hEntries : ∀ m, ((K.put K.next d).log (.link n K.next)).entries m =
          if m = n then some K.next else K.entries m := fun m => by
        rw [entries_log, DirChange.apply_link, entries_put]
      have hFresh : ∀ m, K.entries m ≠ some K.next := fun m h =>
        Nat.lt_irrefl _ (hK.entries_lt h)
      refine ⟨fun m₁ m₂ i h₁ h₂ => ?_, fun m i h => ?_⟩
      · have h₁ := (hEntries m₁).symm.trans h₁
        have h₂ := (hEntries m₂).symm.trans h₂
        have hInj := hK.inj m₁ m₂ i
        grind
      · change some i ∈ ((K.put K.next d).log (.link n K.next)).possible m at h
        change i < K.next + 1
        rcases mem_possible_log.mp h with h | h
        · exact Nat.lt_succ_of_lt (hK.lt_next m i h)
        · rw [DirChange.eq_of_on_link h]
          exact Nat.lt_succ_self _
  | write n d =>
    change (K.write n d).Sound
    unfold Disk.write
    split
    · exact hK.put _ d
    · exact hK
  | sync n =>
    change (K.sync n).Sound
    unfold Disk.sync
    split
    · exact ⟨hK.inj, hK.lt_next⟩
    · exact hK
  | rename a b =>
    change (K.rename a b).Sound
    unfold Disk.rename
    split
    · rename_i j hA
      refine ⟨fun m₁ m₂ i h₁ h₂ => ?_, fun m i h => ?_⟩
      · rw [entries_log, DirChange.apply_move] at h₁ h₂
        have hInj := hK.inj m₁ m₂ i
        have hOnly₁ := hK.inj m₁ a j
        have hOnly₂ := hK.inj m₂ a j
        grind
      · change i < K.next
        rcases mem_possible_log.mp h with h | h
        · exact hK.lt_next m i h
        · rw [DirChange.eq_of_on_move h]
          exact hK.entries_lt hA
    · exact hK
  | remove n =>
    change (K.remove n).Sound
    unfold Disk.remove
    split
    · refine ⟨fun m₁ m₂ i h₁ h₂ => ?_, fun m i h => ?_⟩
      · rw [entries_log, DirChange.apply_unlink] at h₁ h₂
        have hInj := hK.inj m₁ m₂ i
        grind
      · change i < K.next
        rcases mem_possible_log.mp h with h | h
        · exact hK.lt_next m i h
        · exact absurd h DirChange.on_unlink_ne
    · exact hK
  | syncDir =>
    refine ⟨hK.inj, fun m i h => ?_⟩
    exact hK.entries_lt (List.mem_singleton.mp h).symm

-- ---------------------------------------------------------------------------
-- Changes that wait
-- ---------------------------------------------------------------------------

theorem not_unsettled_syncDir (K : Disk N D) (n : N) : ¬ (K.exec .syncDir).Unsettled n := by
  rintro ⟨c, hc, -⟩
  cases hc

theorem unsettled_log {c : DirChange N} (h : c.on n = none) :
    (K.log c).Unsettled n ↔ K.Unsettled n := by
  unfold Unsettled log
  simp [h]

/-- Operations on other names leave it to the name whether its entry is durable. -/
theorem unsettled_exec {o : DiskOp N D} (hSync : o ≠ .syncDir) (hn : n ∉ o.touches) :
    (K.exec o).Unsettled n ↔ K.Unsettled n := by
  cases o with
  | create m d =>
    change (K.create m d).Unsettled n ↔ _
    unfold Disk.create
    split
    · rfl
    · refine unsettled_log (K := K.put K.next d) ?_
      rw [DirChange.on_link, if_neg (by simpa [DiskOp.touches] using hn)]
  | write m d =>
    change (K.write m d).Unsettled n ↔ _
    unfold Disk.write
    split <;> rfl
  | sync m =>
    change (K.sync m).Unsettled n ↔ _
    unfold Disk.sync
    split <;> rfl
  | rename a b =>
    obtain ⟨hA, hB⟩ : n ≠ a ∧ n ≠ b := by simpa [DiskOp.touches] using hn
    change (K.rename a b).Unsettled n ↔ _
    unfold Disk.rename
    split
    · refine unsettled_log ?_
      rw [DirChange.on_move, if_neg hB, if_neg hA]
    · rfl
  | remove m =>
    change (K.remove m).Unsettled n ↔ _
    unfold Disk.remove
    split
    · refine unsettled_log ?_
      rw [DirChange.on_unlink, if_neg (by simpa [DiskOp.touches] using hn)]
    · rfl
  | syncDir => exact absurd rfl hSync

/-- What is moved onto a name waits to be durable. -/
theorem unsettled_rename (hm : (K.entries m).isSome) : (K.exec (.rename m n)).Unsettled n := by
  obtain ⟨i, hi⟩ := Option.isSome_iff_exists.mp hm
  change (K.rename m n).Unsettled n
  unfold Disk.rename
  rw [hi]
  refine ⟨.move m n i, List.mem_append_right _ (List.mem_singleton_self _), ?_⟩
  rw [DirChange.on_move, if_pos rfl]
  rfl

-- ---------------------------------------------------------------------------
-- Names that are certain
-- ---------------------------------------------------------------------------

/-- What a power loss leaves of a name that is certain. -/
theorem Certain.survives (h : K.Certain n V) {d : N → Option D} (hd : K.Survives d) : d n ∈ V := by
  obtain ⟨kept, hKept, contents, hContents, hEq⟩ := hd
  obtain ⟨hMem, hSynced⟩ := h.durable _ (after_mem_possible hKept n)
  rw [hEq]
  cases hAfter : K.after kept n with
  | none =>
    rw [hAfter] at hMem
    exact hMem
  | some i =>
    rw [hAfter] at hMem hSynced
    rw [Option.map_some, hContents i (hSynced i rfl)]
    exact hMem

theorem Certain.mono (h : K.Certain n V) (hVW : V ⊆ W) : K.Certain n W :=
  ⟨fun x hx => ⟨hVW (h.durable x hx).1, (h.durable x hx).2⟩, h.own⟩

theorem Certain.put (h : K.Certain n V) {i : Nat} (hi : some i ∉ K.possible n) (d : D) :
    (K.put i d).Certain n V where
  durable := fun x hx => by
    obtain ⟨hMem, hSynced⟩ := h.durable x hx
    have hNe : ∀ j, x = some j → j ≠ i := by
      rintro j rfl rfl
      exact hi hx
    refine ⟨?_, fun j hj => ?_⟩
    · cases x with
      | none => exact hMem
      | some j =>
        rw [Option.map_some, contents_put_of_ne (hNe j rfl)]
        exact hMem
    · rw [synced_put_of_ne (hNe j hj)]
      exact hSynced j hj
  own := h.own

theorem Certain.log (h : K.Certain n V) {c : DirChange N} (hOn : c.on n = none)
    (hNew : ∀ m i, c.on m = some (some i) → some i ∉ K.possible n) : (K.log c).Certain n V where
  durable := fun x hx => by
    rw [mem_possible_log, hOn] at hx
    exact h.durable x (hx.resolve_right (by simp))
  own := fun i hi m hm => by
    rw [mem_possible_log, hOn] at hi
    have hi := hi.resolve_right (by simp)
    rw [entries_log] at hm
    unfold DirChange.apply at hm
    cases hOnM : c.on m with
    | none =>
      rw [hOnM] at hm
      exact h.own i hi m hm
    | some x =>
      rw [hOnM] at hm
      obtain rfl : x = some i := hm
      exact absurd hi (hNew m i hOnM)

/-- The contents under another name are nothing to it. -/
theorem Certain.not_mem (h : K.Certain n V) {i : Nat} (hm : K.entries m = some i) (hNe : m ≠ n) :
    some i ∉ K.possible n := fun hi => hNe (h.own i hi m hm)

/-- Operations on other names, and the sync of the directory, leave a name as certain as it was. -/
theorem Certain.exec (hK : K.Sound) (h : K.Certain n V) {o : DiskOp N D} (hn : n ∉ o.touches) :
    (K.exec o).Certain n V := by
  cases o with
  | create m d =>
    have hNe : m ≠ n := fun hEq => hn (hEq ▸ List.mem_singleton_self _)
    change (K.create m d).Certain n V
    unfold Disk.create
    split
    · rename_i i hM
      exact h.put (h.not_mem hM hNe) d
    · have hLog := (h.put (hK.next_not_mem n) d).log (c := .link m K.next)
        (by simp [DirChange.on, hNe.symm]) (fun m' i hOn => ?_)
      · exact ⟨hLog.durable, hLog.own⟩
      · rw [DirChange.eq_of_on_link hOn]
        exact hK.next_not_mem n
  | write m d =>
    have hNe : m ≠ n := fun hEq => hn (hEq ▸ List.mem_singleton_self _)
    change (K.write m d).Certain n V
    unfold Disk.write
    split
    · rename_i i hM
      exact h.put (h.not_mem hM hNe) d
    · exact h
  | sync m =>
    change (K.sync m).Certain n V
    unfold Disk.sync
    split
    · rename_i j _
      refine ⟨fun x hx => ⟨(h.durable x hx).1, fun i hi => ?_⟩, h.own⟩
      change Function.update K.synced j true i = true
      by_cases hEq : i = j
      · rw [hEq, Function.update_self]
      · rw [Function.update_of_ne hEq]
        exact (h.durable x hx).2 i hi
    · exact h
  | rename a b =>
    obtain ⟨hA, hB⟩ : n ≠ a ∧ n ≠ b := by simpa [DiskOp.touches] using hn
    change (K.rename a b).Certain n V
    unfold Disk.rename
    split
    · rename_i i hEntry
      refine h.log (by simp [DirChange.on, hA, hB]) fun m' j hOn => ?_
      rw [DirChange.eq_of_on_move hOn]
      exact h.not_mem hEntry (Ne.symm hA)
    · exact h
  | remove m =>
    have hNe : m ≠ n := fun hEq => hn (hEq ▸ List.mem_singleton_self _)
    change (K.remove m).Certain n V
    unfold Disk.remove
    split
    · exact h.log (by simp [DirChange.on, hNe.symm]) fun m' j hOn =>
        absurd hOn DirChange.on_unlink_ne
    · exact h
  | syncDir =>
    have hEntry : ∀ x ∈ (K.exec .syncDir).possible n, x ∈ K.possible n := by
      intro x hx
      rw [List.mem_singleton.mp hx]
      exact K.entries_mem_possible n
    exact ⟨fun x hx => h.durable x (hEntry x hx), fun i hi => h.own i (hEntry _ hi)⟩

/-- A synced file moved onto the name: it is certain of the contents of that file, or of what it
was certain of before. -/
theorem Certain.rename_onto (hK : K.Sound) (h : K.Certain n V) (hSynced : K.Synced m)
    (hMem : (K.entries m).isSome) :
    (K.exec (.rename m n)).Certain n (insert (K.lookup m) V) := by
  obtain ⟨i, hM⟩ := Option.isSome_iff_exists.mp hMem
  have hLookup : K.lookup m = some (K.contents i) := congrArg (Option.map K.contents) hM
  have hExec : K.exec (.rename m n) = K.log (.move m n i) := by
    change K.rename m n = _
    unfold rename
    rw [hM]
  rw [hLookup, hExec]
  refine ⟨fun x hx => ?_, fun j hj m' hM' => ?_⟩
  · rcases mem_possible_log.mp hx with hx | hx
    · exact ⟨.inr (h.durable x hx).1, (h.durable x hx).2⟩
    · obtain rfl : x = some i := by simpa [DirChange.on, eq_comm] using hx
      exact ⟨.inl rfl, fun j hj => Option.some.inj hj ▸ hSynced i hM⟩
  · rw [entries_log] at hM'
    rw [DirChange.apply_move] at hM'
    rcases mem_possible_log.mp hj with hj | hj
    · have hOwn := h.own j hj m'
      grind
    · have hJ := DirChange.eq_of_on_move hj
      have hInj := hK.inj m' m i
      grind

-- ---------------------------------------------------------------------------
-- Synced files
-- ---------------------------------------------------------------------------

/-- The sync of the directory makes a synced file certain. -/
theorem Synced.certain (hK : K.Sound) (h : K.Synced n) :
    (K.exec .syncDir).Certain n {K.lookup n} := by
  refine ⟨fun x hx => ?_, fun i hi m hm => ?_⟩
  · rw [List.mem_singleton.mp hx]
    exact ⟨rfl, h⟩
  · exact hK.inj m n i hm (List.mem_singleton.mp hi).symm

/-- On a disk all of whose files are durable every name is certain. -/
theorem certain_settled {base : N → Option Nat} {contents : Nat → D} {next : Nat}
    (hK : (settled base contents next).Sound) :
    (settled base contents next).Certain n {(settled base contents next).lookup n} := by
  refine ⟨fun x hx => ?_, fun i hi m hm => ?_⟩
  · rw [List.mem_singleton.mp hx]
    exact ⟨rfl, fun _ _ => rfl⟩
  · exact hK.inj m n i hm (List.mem_singleton.mp hi).symm

theorem Synced.put (hK : K.Sound) (h : K.Synced n) {i : Nat} (hm : K.entries m = some i)
    (hNe : m ≠ n) (d : D) : (K.put i d).Synced n := by
  intro j hj
  have hji : j ≠ i := by
    rintro rfl
    exact hNe (hK.inj m n j hm hj)
  rw [synced_put_of_ne hji]
  exact h j hj

/-- A synced file stays synced unless it is written; what is moved onto it is to be synced. -/
theorem Synced.exec (hK : K.Sound) (h : K.Synced n) {o : DiskOp N D}
    (hWrite : ∀ d, o ≠ .create n d ∧ o ≠ .write n d)
    (hMove : ∀ a, o = .rename a n → K.Synced a) : (K.exec o).Synced n := by
  cases o with
  | create m d =>
    have hNe : m ≠ n := by
      rintro rfl
      exact (hWrite d).1 rfl
    change (K.create m d).Synced n
    unfold Disk.create
    split
    · rename_i i hM
      exact h.put hK hM hNe d
    · intro j hj
      change ((K.put K.next d).log (.link m K.next)).entries n = some j at hj
      rw [entries_log, DirChange.apply_link, if_neg hNe.symm, entries_put] at hj
      change (K.put K.next d).synced j = true
      rw [synced_put_of_ne (Nat.ne_of_lt (hK.entries_lt hj))]
      exact h j hj
  | write m d =>
    have hNe : m ≠ n := by
      rintro rfl
      exact (hWrite d).2 rfl
    change (K.write m d).Synced n
    unfold Disk.write
    split
    · rename_i i hM
      exact h.put hK hM hNe d
    · exact h
  | sync m =>
    change (K.sync m).Synced n
    unfold Disk.sync
    split
    · rename_i i _
      intro j hj
      change Function.update K.synced i true j = true
      by_cases hEq : j = i
      · rw [hEq, Function.update_self]
      · rw [Function.update_of_ne hEq]
        exact h j hj
    · exact h
  | rename a b =>
    change (K.rename a b).Synced n
    unfold Disk.rename
    split
    · rename_i i hA
      intro j hj
      rw [entries_log, DirChange.apply_move] at hj
      split at hj
      · rename_i hEq
        obtain rfl := Option.some.inj hj
        exact hMove a (hEq ▸ rfl) i hA
      · split at hj
        · cases hj
        · exact h j hj
    · exact h
  | remove m =>
    change (K.remove m).Synced n
    unfold Disk.remove
    split
    · intro j hj
      rw [entries_log, DirChange.apply_unlink] at hj
      split at hj
      · cases hj
      · exact h j hj
    · exact h
  | syncDir => exact h

/-- A file that was synced. -/
theorem synced_sync (K : Disk N D) (n : N) : (K.exec (.sync n)).Synced n := by
  change (K.sync n).Synced n
  unfold Disk.sync
  split
  · rename_i i hN
    intro j hj
    obtain rfl : i = j := Option.some.inj (hN.symm.trans hj)
    exact Function.update_self _ _ _
  · rename_i hN
    intro j hj
    cases hN.symm.trans hj

-- ---------------------------------------------------------------------------
-- What processes see
-- ---------------------------------------------------------------------------

theorem lookup_put (hK : K.Sound) {i : Nat} (hn : K.entries n = some i) (d : D) (m : N) :
    (K.put i d).lookup m = if m = n then some d else K.lookup m := by
  unfold lookup
  rw [entries_put]
  split
  · rename_i hEq
    rw [hEq, hn]
    exact congrArg some (Function.update_self _ _ _)
  · rename_i hNe
    cases hM : K.entries m with
    | none => rfl
    | some j =>
      have hji : j ≠ i := by
        rintro rfl
        exact hNe (hK.inj m n j hM hn)
      rw [Option.map_some, Option.map_some, contents_put_of_ne hji]

theorem lookup_create (hK : K.Sound) (n : N) (d : D) (m : N) :
    (K.create n d).lookup m = if m = n then some d else K.lookup m := by
  unfold Disk.create
  split
  · rename_i i hN
    exact lookup_put hK hN d m
  · change ((K.put K.next d).log (.link n K.next)).lookup m = _
    unfold lookup
    rw [entries_log, DirChange.apply_link, entries_put]
    split
    · exact congrArg some (Function.update_self _ _ _)
    · cases hM : K.entries m with
      | none => rfl
      | some j =>
        exact congrArg some (contents_put_of_ne (Nat.ne_of_lt (hK.entries_lt hM)) d)

theorem lookup_write (hK : K.Sound) (n : N) (d : D) (m : N) :
    (K.write n d).lookup m = if m = n then (K.lookup n).map fun _ => d else K.lookup m := by
  unfold Disk.write
  split
  · rename_i i hN
    rw [lookup_put hK hN]
    unfold lookup
    rw [hN]
    rfl
  · rename_i hN
    split
    · rename_i hEq
      rw [hEq]
      unfold lookup
      rw [hN]
      rfl
    · rfl

theorem lookup_sync (n m : N) : (K.sync n).lookup m = K.lookup m := by
  unfold Disk.sync
  split <;> rfl

theorem lookup_rename {a : N} {d : D} (h : K.lookup a = some d) (b m : N) :
    (K.rename a b).lookup m = if m = b then some d else if m = a then none else K.lookup m := by
  obtain ⟨i, hA, rfl⟩ := Option.map_eq_some_iff.mp h
  unfold Disk.rename
  rw [hA]
  change (K.log (.move a b i)).lookup m = _
  unfold lookup
  rw [entries_log, DirChange.apply_move]
  split
  · rfl
  · split <;> rfl

theorem lookup_remove (n m : N) : (K.remove n).lookup m = if m = n then none else K.lookup m := by
  unfold Disk.remove
  split
  · unfold lookup
    rw [entries_log, DirChange.apply_unlink]
    split <;> rfl
  · rename_i hN
    split
    · rename_i hEq
      unfold lookup
      rw [hEq, hN]
      rfl
    · rfl

-- ---------------------------------------------------------------------------
-- What a power loss may leave
-- ---------------------------------------------------------------------------

/-- A power loss may leave what processes see. -/
theorem survives_lookup (K : Disk N D) : K.Survives K.lookup :=
  ⟨K.pending, .refl _, K.contents, fun _ _ => rfl, fun _ => rfl⟩

theorem survives_put (i : Nat) (d : D) : (K.put i d).Survives K.lookup := by
  refine ⟨K.pending, .refl _, K.contents, fun j hj => ?_, fun _ => rfl⟩
  have hNe : j ≠ i := by
    rintro rfl
    unfold put at hj
    simp at hj
  exact (contents_put_of_ne hNe d).symm

theorem Survives.log {d : N → Option D} (h : K.Survives d) (c : DirChange N) :
    (K.log c).Survives d := by
  obtain ⟨kept, hKept, hRest⟩ := h
  exact ⟨kept, hKept.trans (List.sublist_append_left _ _), hRest⟩

/-- A power loss may undo that a file was moved and keep that another one was removed after it. -/
theorem survives_rename_remove {a b : N} (hA : n ≠ a) (hB : n ≠ b) :
    ((K.rename a b).remove n).Survives (K.remove n).lookup := by
  rcases hMoved : K.entries a with _ | i
  · have hSame : K.rename a b = K := by
      unfold Disk.rename
      rw [hMoved]
    rw [hSame]
    exact survives_lookup _
  · have hLogged : K.rename a b = K.log (.move a b i) := by
      unfold Disk.rename
      rw [hMoved]
    have hEntry : (K.log (.move a b i)).entries n = K.entries n := by
      rw [entries_log, DirChange.apply_move, if_neg hB, if_neg hA]
    rw [hLogged]
    unfold Disk.remove
    rw [hEntry]
    split
    · exact ⟨K.pending ++ [.unlink n], (List.sublist_append_left _ _).append_right _, K.contents,
        fun _ _ => rfl, fun _ => rfl⟩
    · exact K.survives_lookup.log _

/-- A power loss may undo the last operation. -/
theorem survives_exec (K : Disk N D) (o : DiskOp N D) : (K.exec o).Survives K.lookup := by
  cases o with
  | create n d =>
    unfold exec create
    dsimp only
    split
    · exact survives_put _ d
    · exact (survives_put _ d).log (.link n K.next)
  | write n d =>
    unfold exec write
    dsimp only
    split
    · exact survives_put _ d
    · exact K.survives_lookup
  | sync n =>
    unfold exec sync
    dsimp only
    split
    · exact ⟨K.pending, .refl _, K.contents, fun _ _ => rfl, fun _ => rfl⟩
    · exact K.survives_lookup
  | rename a b =>
    unfold exec rename
    dsimp only
    split
    · exact K.survives_lookup.log _
    · exact K.survives_lookup
  | remove n =>
    unfold exec remove
    dsimp only
    split
    · exact K.survives_lookup.log _
    · exact K.survives_lookup
  | syncDir => exact ⟨[], .refl _, K.contents, fun _ _ => rfl, fun _ => rfl⟩

end Disk
