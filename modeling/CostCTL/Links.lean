/-!
# Chains of numbered entries

Entries are numbered from one and linked into chains. A chain starts at its head, which is the
number of its first entry; beside each entry stands the number of the next one, and zero ends the
chain. Every entry has a key, and the remainder of the key by the number of heads tells its chain.

Chains are `Linked` if each has exactly its entries and has each of them once. A walk along a linked
chain comes to its end in no more steps than there are entries, so it never goes astray.
-/

namespace CostCTL.Links

variable {heads next : Array Nat} {keys l : List Nat} {n m i j k last steps : Nat}
  {accepts : Nat → Bool}

/-- The number of the first entry in the chain of a key. -/
def head (heads : Array Nat) (k : Nat) : Nat := heads.getD (k % heads.size) 0

/-- Where a walk comes to. -/
inductive Arrival where
  /-- the entry with this number -/
  | found (n : Nat)
  /-- the end of the chain, after the entry with this number; zero if the chain has none -/
  | ended (last : Nat)
  /-- an entry that is left when all steps are taken -/
  | astray
  deriving DecidableEq

/-- Walk along a chain until an entry is accepted. The walk is at number `n`, behind `last`. -/
def walk (next : Array Nat) (accepts : Nat → Bool) (steps last n : Nat) : Arrival :=
  match steps, n with
  | _, 0 => .ended last
  | 0, _ + 1 => .astray
  | steps + 1, i + 1 =>
    if accepts i then .found (i + 1) else walk next accepts steps (i + 1) (next.getD i 0)

/-- Enter one more entry in front of its chain. -/
def prepend (k : Nat) (heads next : Array Nat) : Array Nat × Array Nat :=
  let first := head heads k
  (heads.setIfInBounds (k % heads.size) (next.size + 1), next.push first)

/-- Enter one more entry at the end of its chain, behind `last`. -/
def append (k last : Nat) (heads next : Array Nat) : Array Nat × Array Nat :=
  let n := next.size + 1
  match last with
  | 0 => (heads.setIfInBounds (k % heads.size) n, next.push 0)
  | i + 1 => (heads, (next.push 0).setIfInBounds i n)

theorem size_append_fst (k last : Nat) (heads next : Array Nat) :
    (append k last heads next).1.size = heads.size := by
  cases last <;> simp [append]

theorem size_append_snd (k last : Nat) (heads next : Array Nat) :
    (append k last heads next).2.size = next.size + 1 := by
  cases last <;> simp [append]

/-- Enter entries with these keys, each in front of its chain. -/
def prependAll (heads next : Array Nat) : List Nat → Array Nat × Array Nat
  | [] => (heads, next)
  | k :: keys =>
    let (heads, next) := prepend k heads next
    prependAll heads next keys

/-- `n` chains of entries with these keys. -/
def lay (n : Nat) (keys : List Nat) : Array Nat × Array Nat :=
  prependAll (.replicate n 0) #[] keys

/-! ### What a number leads to -/

/-- From the number on, the chain has the entries at these positions. -/
inductive Follows (next : Array Nat) : Nat → List Nat → Prop where
  | nil : Follows next 0 []
  | cons {i : Nat} {l : List Nat} (rest : Follows next (next.getD i 0) l) :
    Follows next (i + 1) (i :: l)

/-- A link of an entry that is not in the chain does not matter. -/
theorem Follows.of_agree {next' : Array Nat} (h : Follows next n l)
    (ha : ∀ i ∈ l, next'.getD i 0 = next.getD i 0) : Follows next' n l := by
  induction h with
  | nil => exact .nil
  | cons rest ih =>
    refine .cons ?_
    rw [ha _ List.mem_cons_self]
    exact ih fun i hi => ha i (List.mem_cons_of_mem _ hi)

theorem getD_push_of_lt (h : i < next.size) (m : Nat) : (next.push m).getD i 0 = next.getD i 0 := by
  rw [Array.getD_eq_getD_getElem?, Array.getD_eq_getD_getElem?, Array.getElem?_push,
    if_neg (Nat.ne_of_lt h)]

theorem getD_push_self (next : Array Nat) (m : Nat) : (next.push m).getD next.size 0 = m := by
  simp [Array.getD_eq_getD_getElem?]

theorem getD_setIfInBounds_self (h : i < next.size) (m : Nat) :
    (next.setIfInBounds i m).getD i 0 = m := by
  simp [Array.getD_eq_getD_getElem?, h]

theorem getD_setIfInBounds_of_ne (h : i ≠ j) (next : Array Nat) (m : Nat) :
    (next.setIfInBounds i m).getD j 0 = next.getD j 0 := by
  simp [Array.getD_eq_getD_getElem?, h]

/-- An entry without a next one is put behind the last entry of a chain. -/
theorem Follows.concat (h : Follows next n (l ++ [j])) (hj : j < next.size) (hl : j ∉ l)
    (hm : m ∉ l ++ [j]) (h0 : next.getD m 0 = 0) :
    Follows (next.setIfInBounds j (m + 1)) n (l ++ [j] ++ [m]) := by
  have hjm : j ≠ m := fun he => hm (List.mem_append_right _ (List.mem_singleton.mpr he.symm))
  have hlast : Follows (next.setIfInBounds j (m + 1)) (m + 1) [m] := by
    refine .cons ?_
    rw [getD_setIfInBounds_of_ne hjm, h0]
    exact .nil
  induction l generalizing n with
  | nil =>
    cases h with
    | cons rest =>
      refine .cons ?_
      rw [getD_setIfInBounds_self hj]
      exact hlast
  | cons i l ih =>
    cases h with
    | cons rest =>
      have hji : j ≠ i := fun he => hl (he ▸ List.mem_cons_self)
      refine .cons ?_
      rw [getD_setIfInBounds_of_ne hji]
      exact ih rest (fun hi => hl (List.mem_cons_of_mem _ hi))
        fun hi => hm (List.mem_cons_of_mem _ hi)

/-- A walk comes to the first entry that is accepted, or to the end of the chain. -/
theorem walk_of_follows (h : Follows next n l) (hs : l.length ≤ steps) :
    walk next accepts steps last n =
      match l.find? accepts with
      | some i => .found (i + 1)
      | none => .ended (l.getLast?.elim last (· + 1)) := by
  induction h generalizing steps last with
  | nil => cases steps <;> rfl
  | @cons i l rest ih =>
    cases steps with
    | zero => simp at hs
    | succ steps =>
      rw [walk]
      by_cases ha : accepts i = true
      · simp [ha]
      · rw [if_neg ha, ih (Nat.le_of_succ_le_succ hs), List.find?_cons_of_neg ha]
        cases l with
        | nil => rfl
        | cons k l => simp [List.getLast?_cons]

/-! ### Chains that have their entries -/

/-- Each chain has the entries whose keys tell it, and has each of them once. -/
structure Linked (heads next : Array Nat) (keys : List Nat) : Prop where
  size_next : next.size = keys.length
  chain : ∀ b < heads.size, ∃ l, Follows next (heads.getD b 0) l ∧ l.Nodup ∧
    ∀ i, i ∈ l ↔ ∃ k, keys[i]? = some k ∧ k % heads.size = b

theorem linked_empty (n : Nat) : Linked (.replicate n 0) #[] [] where
  size_next := rfl
  chain b hb := by
    refine ⟨[], ?_, List.nodup_nil, by simp⟩
    have h0 : (Array.replicate n 0).getD b 0 = 0 := by
      rw [Array.getD_eq_getD_getElem?, Array.getElem?_replicate]
      split <;> rfl
    rw [h0]
    exact .nil

/-- Distinct positions are not more than there are. -/
theorem length_le_of_nodup (hl : l.Nodup) (hn : ∀ i ∈ l, i < n) : l.length ≤ n := by
  induction n generalizing l with
  | zero =>
    cases l with
    | nil => exact Nat.le_refl _
    | cons i l => exact absurd (hn i List.mem_cons_self) (Nat.not_lt_zero i)
  | succ n ih =>
    have herase : (l.erase n).length ≤ n := by
      refine ih (hl.erase n) fun i hi => ?_
      rw [hl.mem_erase_iff] at hi
      exact Nat.lt_of_le_of_ne (Nat.le_of_lt_succ (hn i hi.2)) hi.1
    by_cases hm : n ∈ l
    · rw [List.length_erase_of_mem hm] at herase
      omega
    · rw [List.erase_of_not_mem hm] at herase
      exact Nat.le_succ_of_le herase

namespace Linked

/-- The chain of a key has an entry for it at every position with that key. -/
theorem exists_follows (h : Linked heads next keys) (hp : 0 < heads.size) (k : Nat) :
    ∃ l, Follows next (head heads k) l ∧ l.Nodup ∧ l.length ≤ keys.length ∧
      ∀ i, i ∈ l ↔ ∃ k', keys[i]? = some k' ∧ k' % heads.size = k % heads.size := by
  obtain ⟨l, hf, hl, hmem⟩ := h.chain (k % heads.size) (Nat.mod_lt k hp)
  refine ⟨l, hf, hl, length_le_of_nodup hl fun i hi => ?_, hmem⟩
  obtain ⟨k', hk', -⟩ := (hmem i).mp hi
  exact (List.getElem?_eq_some_iff.mp hk').1

/-- A new entry is in the chain of its key and in no other. -/
theorem concat {heads' next' : Array Nat} (h : Linked heads next keys)
    (hs : heads'.size = heads.size) (hn : next'.size = next.size + 1)
    (hchain : ∀ b < heads.size, ∀ l, Follows next (heads.getD b 0) l → l.Nodup →
      (∀ i, i ∈ l ↔ ∃ k', keys[i]? = some k' ∧ k' % heads.size = b) →
      ∃ l', Follows next' (heads'.getD b 0) l' ∧
        l'.Perm (if b = k % heads.size then next.size :: l else l)) :
    Linked heads' next' (keys ++ [k]) where
  size_next := by rw [hn, h.size_next, List.length_append, List.length_singleton]
  chain b hb := by
    rw [hs] at hb
    obtain ⟨l, hf, hl, hmem⟩ := h.chain b hb
    obtain ⟨l', hf', hperm⟩ := hchain b hb l hf hl hmem
    have hfresh : next.size ∉ l := by
      rw [hmem, h.size_next]
      simp
    refine ⟨l', hf', hperm.nodup_iff.mpr ?_, fun i => ?_⟩
    · split
      · exact List.nodup_cons.mpr ⟨hfresh, hl⟩
      · exact hl
    · rw [hperm.mem_iff, hs, List.getElem?_append]
      by_cases hi : i < keys.length
      · have hne : i ≠ next.size := by rw [h.size_next]; exact Nat.ne_of_lt hi
        rw [if_pos hi, ← hmem]
        split <;> simp [hne]
      · have hil : i ∉ l := by
          rw [hmem]
          rintro ⟨k', hk', -⟩
          exact hi (List.getElem?_eq_some_iff.mp hk').1
        rw [if_neg hi, List.getElem?_singleton, ← h.size_next]
        have hle : next.size ≤ i := by rw [h.size_next]; omega
        split <;> split <;> grind

theorem lt_of_mem (h : Linked heads next keys) {b : Nat}
    (hmem : ∀ i, i ∈ l ↔ ∃ k', keys[i]? = some k' ∧ k' % heads.size = b) :
    ∀ i ∈ l, i < next.size := by
  intro i hi
  obtain ⟨k', hk', -⟩ := (hmem i).mp hi
  rw [h.size_next]
  exact (List.getElem?_eq_some_iff.mp hk').1

theorem prepend (h : Linked heads next keys) (hp : 0 < heads.size) (k : Nat) :
    Linked (prepend k heads next).1 (prepend k heads next).2 (keys ++ [k]) := by
  refine h.concat (by simp [Links.prepend]) (by simp [Links.prepend]) fun b hb l hf hl hmem => ?_
  have hkeep : Follows (next.push (head heads k)) (heads.getD b 0) l :=
    hf.of_agree fun i hi => getD_push_of_lt (h.lt_of_mem hmem i hi) _
  by_cases hb' : b = k % heads.size
  · refine ⟨next.size :: l, ?_, by rw [if_pos hb']⟩
    simp only [Links.prepend]
    rw [hb', getD_setIfInBounds_self (Nat.mod_lt k hp)]
    refine .cons ?_
    rw [getD_push_self]
    rwa [hb'] at hkeep
  · refine ⟨l, ?_, by rw [if_neg hb']⟩
    simp only [Links.prepend]
    rw [getD_setIfInBounds_of_ne (Ne.symm hb')]
    exact hkeep

theorem prependAll (h : Linked heads next keys) (hp : 0 < heads.size) (more : List Nat) :
    (prependAll heads next more).1.size = heads.size ∧
    Linked (prependAll heads next more).1 (prependAll heads next more).2 (keys ++ more) := by
  induction more generalizing heads next keys with
  | nil => exact ⟨rfl, by rwa [List.append_nil]⟩
  | cons k more ih =>
    have hs : (Links.prepend k heads next).1.size = heads.size := by simp [Links.prepend]
    have ih := ih (h.prepend hp k) (by rw [hs]; exact hp)
    rw [List.append_assoc, List.singleton_append] at ih
    exact ⟨ih.1.trans hs, ih.2⟩

/-- A walk that ended has come to the last entry of the chain. -/
theorem eq_of_walk_ended (hf : Follows next n l) (hl : l.length ≤ steps)
    (he : walk next accepts steps 0 n = .ended last) : last = l.getLast?.elim 0 (· + 1) := by
  rw [walk_of_follows hf hl] at he
  split at he
  · cases he
  · exact (Arrival.ended.inj he).symm

/-- A walk that ended has found where its key can be entered. -/
theorem append (h : Linked heads next keys) (hp : 0 < heads.size)
    (he : walk next accepts keys.length 0 (head heads k) = .ended last) :
    Linked (append k last heads next).1 (append k last heads next).2 (keys ++ [k]) := by
  refine h.concat (size_append_fst ..) (size_append_snd ..) fun b hb l hf hl hmem => ?_
  have hlt := h.lt_of_mem hmem
  have hpush : Follows (next.push 0) (heads.getD b 0) l :=
    hf.of_agree fun i hi => getD_push_of_lt (hlt i hi) 0
  by_cases hb' : b = k % heads.size
  · refine ⟨l ++ [next.size], ?_, by rw [if_pos hb']; exact List.perm_append_singleton ..⟩
    subst hb'
    have hlast := eq_of_walk_ended hf (h.size_next ▸ length_le_of_nodup hl hlt) he
    cases hg : l.getLast? with
    | none =>
      rw [hg] at hlast
      obtain rfl := List.getLast?_eq_none_iff.mp hg
      subst hlast
      simp only [Links.append, Option.elim_none, List.nil_append]
      rw [getD_setIfInBounds_self (Nat.mod_lt k hp)]
      refine .cons ?_
      rw [getD_push_self]
      exact .nil
    | some j =>
      rw [hg] at hlast
      obtain ⟨l, rfl⟩ := List.getLast?_eq_some_iff.mp hg
      subst hlast
      have hj := hlt j (List.mem_append_right _ (List.mem_singleton_self j))
      refine hpush.concat (by simp; omega) ?_ (fun hm => Nat.lt_irrefl _ (hlt _ hm))
        (getD_push_self next 0)
      exact fun hjl => (List.nodup_append.mp hl).2.2 j hjl j (List.mem_singleton_self j) rfl
  · refine ⟨l, ?_, by rw [if_neg hb']⟩
    cases last with
    | zero =>
      simp only [Links.append]
      rwa [getD_setIfInBounds_of_ne (Ne.symm hb')]
    | succ j =>
      -- the entry that is linked anew is in the chain of `k`
      obtain ⟨own, hown, -, hlen, hmemOwn⟩ := h.exists_follows hp k
      have hlast := eq_of_walk_ended hown hlen he
      have hj : j ∈ own := by
        cases hg : own.getLast? with
        | none => rw [hg] at hlast; cases hlast
        | some i =>
          rw [hg] at hlast
          cases hlast
          exact List.mem_of_getLast? hg
      obtain ⟨k', hk', hmod⟩ := (hmemOwn j).mp hj
      refine hpush.of_agree fun i hi => getD_setIfInBounds_of_ne ?_ _ _
      rintro rfl
      obtain ⟨k'', hk'', hmod'⟩ := (hmem j).mp hi
      cases hk'.symm.trans hk''
      exact hb' (hmod'.symm.trans hmod)

end Linked

theorem linked_lay (hn : 0 < n) (keys : List Nat) :
    (lay n keys).1.size = n ∧ Linked (lay n keys).1 (lay n keys).2 keys := by
  have h := (linked_empty n).prependAll (by simpa using hn) keys
  rw [List.nil_append, Array.size_replicate] at h
  exact h

end CostCTL.Links
