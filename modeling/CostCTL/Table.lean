import CostCTL.Links

/-!
# Interning tables

A table numbers the distinct values put into it, from one, in the order of their first arrival.
Values are found again through chains. Each value has a key, made of its hash, which tells its
chain. The fields of the type say that the chains are linked and that a value stands only once in
the table, so a number once given never changes, whatever the hash function and however often the
chains are laid anew.
-/

namespace CostCTL

open Links

/-- What a value is chained by. A hash without its last bit is a small number. -/
def Table.key {α : Type} [Hashable α] (v : α) : Nat := (hash v >>> 1).toNat

structure Table (α : Type) [DecidableEq α] [Hashable α] where
  values : Array α
  keys : Array Nat
  /-- the number of the first value of each chain, zero if it has none -/
  chains : Array Nat
  /-- the number of the next value in the chain, zero at its end -/
  next : Array Nat
  chains_pos : 0 < chains.size
  keyed : keys = values.map Table.key
  linked : Linked chains next keys.toList
  distinct : values.toList.Nodup

namespace Table

variable {α : Type} [DecidableEq α] [Hashable α] {t : Table α} {v w : α} {i n last : Nat}

/-- The largest size that may be asked for, as a power of two. -/
def maxBits : Nat := 31

/-- A table that starts with `n + 1` chains. -/
def withChains (n : Nat) : Table α :=
  ⟨#[], #[], Array.replicate (n + 1) 0, #[], by simp, by simp, linked_empty _, by simp⟩

def empty : Table α := withChains 0

instance : Inhabited (Table α) := ⟨empty⟩

/-- A table that starts with `2 ^ bits` chains. -/
def withBits (bits : Nat) : Table α := withChains (1 <<< bits - 1)

def ofBits? (bits : Nat) : Option (Table α) := if bits ≤ maxBits then some (withBits bits) else none

def size (t : Table α) : Nat := t.values.size

def toList (t : Table α) : List α := t.values.toList

/-- The same number of chains, without values. -/
def clear (t : Table α) : Table α := withChains (t.chains.size - 1)

/-- The value with a number, if that number was given. -/
def get? (t : Table α) : Nat → Option α
  | 0 => none
  | i + 1 => t.values[i]?

@[simp] theorem get?_succ (t : Table α) (i : Nat) : t.get? (i + 1) = t.toList[i]? := by
  simp [get?, toList]

/-! ### Looking up -/

/-- Whether the value at a position is the one with this key. Values are compared only if their keys
agree. -/
def holds (t : Table α) (k : Nat) (v : α) (i : Nat) : Bool :=
  t.keys[i]?.any (· == k) && t.values[i]?.any (· == v)

/-- The walk to the value with this key, along its chain. -/
def seek (t : Table α) (k : Nat) (v : α) : Arrival :=
  walk t.next (t.holds k v) t.keys.size 0 (head t.chains k)

/-- The number of a value, if it was put. -/
def find? (t : Table α) (v : α) : Option Nat :=
  match t.seek (key v) v with
  | .found n => some n
  | _ => none

def contains (t : Table α) (v : α) : Bool := (t.find? v).isSome

/-- The search stops at the value and nowhere else. -/
theorem holds_iff (t : Table α) (v : α) (i : Nat) :
    t.holds (key v) v i = true ↔ t.toList[i]? = some v := by
  rw [holds, t.keyed, Array.getElem?_map, toList, Array.getElem?_toList]
  cases t.values[i]? with
  | none => simp
  | some w =>
    simp only [Option.map_some, Option.any_some, Bool.and_eq_true, beq_iff_eq, Option.some.injEq]
    exact ⟨And.right, fun h => ⟨congrArg key h, h⟩⟩

/-- The walk to a value comes to it, or to the end of its chain if the table does not hold it. -/
theorem seek_cases (t : Table α) (v : α) :
    (∃ i, t.toList[i]? = some v ∧ t.seek (key v) v = .found (i + 1)) ∨
    (v ∉ t.toList ∧ ∃ last, t.seek (key v) v = .ended last) := by
  obtain ⟨l, hf, -, hlen, hmem⟩ := t.linked.exists_follows t.chains_pos (key v)
  have hseek : t.seek (key v) v = _ := walk_of_follows hf hlen
  cases hl : l.find? (t.holds (key v) v) with
  | some i =>
    rw [hl] at hseek
    exact .inl ⟨i, (t.holds_iff v i).mp (List.find?_some hl), hseek⟩
  | none =>
    rw [hl] at hseek
    refine .inr ⟨fun hv => ?_, _, hseek⟩
    obtain ⟨i, hi⟩ := List.mem_iff_getElem?.mp hv
    have hkey : t.keys.toList[i]? = some (key v) := by
      rw [Array.getElem?_toList, t.keyed, Array.getElem?_map, ← Array.getElem?_toList, ← toList, hi,
        Option.map_some]
    exact List.find?_eq_none.mp hl i ((hmem i).mpr ⟨_, hkey, rfl⟩) ((t.holds_iff v i).mpr hi)

theorem seek_ne_astray (t : Table α) (v : α) : t.seek (key v) v ≠ .astray := by
  rcases t.seek_cases v with ⟨i, -, h⟩ | ⟨-, last, h⟩ <;> simp [h]

theorem not_mem_of_seek_ended (h : t.seek (key v) v = .ended last) : v ∉ t.toList := by
  rcases t.seek_cases v with ⟨i, -, h'⟩ | ⟨hv, -⟩
  · cases h.symm.trans h'
  · exact hv

theorem get?_inj {m : Nat} (hn : t.get? n = some v) (hm : t.get? m = some v) : n = m := by
  cases n with
  | zero => cases hn
  | succ n =>
    cases m with
    | zero => cases hm
    | succ m =>
      rw [get?_succ] at hn hm
      have hlt := (List.getElem?_eq_some_iff.mp hn).1
      rw [(List.getElem?_inj hlt t.distinct).mp (hn.trans hm.symm)]

/-- A value is found under its number. -/
theorem find?_eq_some_iff : t.find? v = some n ↔ t.get? n = some v := by
  rw [find?]
  rcases t.seek_cases v with ⟨i, hi, h⟩ | ⟨hv, last, h⟩
  · rw [h, Option.some.injEq]
    rw [← get?_succ] at hi
    exact ⟨fun hn => hn ▸ hi, get?_inj hi⟩
  · rw [h]
    refine ⟨fun hn => (nomatch hn), fun hn => absurd ?_ hv⟩
    cases n with
    | zero => cases hn
    | succ n =>
      rw [get?_succ] at hn
      exact List.mem_of_getElem? hn

theorem find?_eq_none_iff : t.find? v = none ↔ v ∉ t.toList := by
  rw [find?]
  rcases t.seek_cases v with ⟨i, hi, h⟩ | ⟨hv, last, h⟩
  · rw [h]
    exact ⟨fun hn => (nomatch hn), fun hv => absurd (List.mem_of_getElem? hi) hv⟩
  · rw [h]
    exact ⟨fun _ => hv, fun _ => rfl⟩

theorem contains_iff : t.contains v = true ↔ v ∈ t.toList := by
  rw [contains, Option.isSome_iff_ne_none, ne_eq, find?_eq_none_iff, Decidable.not_not]

/-! ### Putting -/

/-- Lay twice as many chains. -/
def grow : Table α → Table α
  | ⟨values, keys, chains, _, chains_pos, keyed, _, distinct⟩ =>
    have hpos : 0 < 2 * chains.size := Nat.mul_pos Nat.two_pos chains_pos
    match h : lay (2 * chains.size) keys.toList with
    | (chains', next) => ⟨values, keys, chains', next,
      by have hl := (linked_lay hpos keys.toList).1; rw [h] at hl; rw [hl]; exact hpos, keyed,
      by have hl := (linked_lay hpos keys.toList).2; rwa [h] at hl, distinct⟩

@[simp] theorem values_grow (t : Table α) : t.grow.values = t.values := rfl

/-- Room for one more value. -/
def roomy (t : Table α) : Table α := if 2 * t.chains.size ≤ t.values.size then t.grow else t

@[simp] theorem toList_roomy (t : Table α) : t.roomy.toList = t.toList := by
  rw [roomy]
  split <;> rfl

/-- Append a value that was looked for, given its key and the end of its chain. -/
def push : (t : Table α) → (v : α) → (k last : Nat) → k = key v → t.seek k v = .ended last → Table α
  | ⟨values, keys, chains, next, chains_pos, keyed, linked, distinct⟩, v, k, last, hk, ended =>
    have fresh := not_mem_of_seek_ended (hk ▸ ended)
    match h : append k last chains next with
    | (chains', next') => ⟨values.push v, keys.push k, chains', next',
      by have hs := size_append_fst k last chains next; rw [h] at hs; rw [hs]; exact chains_pos,
      by rw [Array.map_push, keyed, hk],
      by
        have hl := linked.append chains_pos ended
        rw [h] at hl
        rwa [Array.toList_push],
      by
        rw [Array.toList_push, List.nodup_append]
        refine ⟨distinct, by simp, fun a ha b hb => ?_⟩
        rw [List.mem_singleton.mp hb]
        rintro rfl
        exact fresh ha⟩

@[simp] theorem toList_push (t : Table α) (v : α) (k last : Nat) (hk : k = key v)
    (h : t.seek k v = .ended last) : (t.push v k last hk h).toList = t.toList ++ [v] := by
  have : (t.push v k last hk h).values = t.values.push v := rfl
  rw [toList, this, Array.toList_push, toList]

/-- The number of `v`, which is a new one if `v` was not put before. -/
def put (t : Table α) (v : α) : (Nat × Bool) × Table α :=
  let t := t.roomy
  let k := key v
  match h : t.seek k v with
  | .found n => ((n, false), t)
  | .ended last => ((t.values.size + 1, true), t.push v k last rfl h)
  | .astray => absurd h (t.seek_ne_astray v)

/-- A value is appended unless the table holds it. -/
theorem toList_put (t : Table α) (v : α) :
    (t.put v).2.toList = if v ∈ t.toList then t.toList else t.toList ++ [v] := by
  rw [put, ← t.toList_roomy]
  split
  · next n h =>
    rcases t.roomy.seek_cases v with ⟨i, hi, -⟩ | ⟨-, last, h'⟩
    · rw [if_pos (List.mem_of_getElem? hi)]
    · cases h.symm.trans h'
  · next last h => rw [if_neg (not_mem_of_seek_ended h), toList_push]
  · next h => exact absurd h (t.roomy.seek_ne_astray v)

/-- A value that the table holds keeps its number. -/
theorem put_of_mem (h : v ∈ t.toList) :
    ∃ i, t.toList[i]? = some v ∧ (t.put v).1 = (i + 1, false) := by
  rw [put, ← t.toList_roomy]
  rcases t.roomy.seek_cases v with ⟨i, hi, hs⟩ | ⟨hv, -⟩
  · refine ⟨i, hi, ?_⟩
    split
    · next n hn =>
      cases hn.symm.trans hs
      rfl
    · next last hn => cases hn.symm.trans hs
    · next hn => cases hn.symm.trans hs
  · exact absurd h (t.toList_roomy ▸ hv)

/-- A new value gets the next number. -/
theorem put_of_not_mem (h : v ∉ t.toList) : (t.put v).1 = (t.toList.length + 1, true) := by
  rw [put, ← t.toList_roomy]
  rcases t.roomy.seek_cases v with ⟨i, hi, -⟩ | ⟨-, last, hs⟩
  · rw [t.toList_roomy] at hi
    exact absurd (List.mem_of_getElem? hi) h
  · split
    · next n hn => cases hn.symm.trans hs
    · rfl
    · next hn => cases hn.symm.trans hs

theorem get?_put_self (t : Table α) (v : α) : (t.put v).2.get? (t.put v).1.1 = some v := by
  by_cases h : v ∈ t.toList
  · obtain ⟨i, hi, hp⟩ := put_of_mem h
    simp [hp, toList_put, h, hi]
  · simp [put_of_not_mem h, toList_put, h]

theorem put_of_get? (h : t.get? n = some v) :
    (t.put v).1 = (n, false) ∧ (t.put v).2.toList = t.toList := by
  cases n with
  | zero => cases h
  | succ i =>
    have hi := h
    rw [get?_succ] at hi
    have hv := List.mem_of_getElem? hi
    obtain ⟨k, hk, hp⟩ := put_of_mem hv
    rw [← get?_succ] at hk
    exact ⟨by rw [hp, get?_inj h hk], by rw [toList_put, if_pos hv]⟩

/-- Numbers already given keep their values. -/
theorem get?_put_of_eq_some (h : t.get? n = some w) : (t.put v).2.get? n = some w := by
  cases n with
  | zero => cases h
  | succ i =>
    rw [get?_succ] at h ⊢
    rw [toList_put]
    split
    · exact h
    · rw [List.getElem?_append_left (List.getElem?_eq_some_iff.mp h).1, h]

/-- No other value is put at a number already given. -/
theorem put_number_iff (h : t.get? n = some v) : (t.put w).1.1 = n ↔ w = v := by
  constructor
  · rintro rfl
    have hw := get?_put_self t w
    rw [get?_put_of_eq_some h] at hw
    exact (Option.some.inj hw).symm
  · rintro rfl
    rw [(put_of_get? h).1]

theorem put_new_iff : (t.put v).1.2 = true ↔ v ∉ t.toList := by
  by_cases h : v ∈ t.toList
  · obtain ⟨i, -, hp⟩ := put_of_mem h
    simp [hp, h]
  · simp [put_of_not_mem h, h]

theorem size_put (t : Table α) (v : α) :
    (t.put v).2.size = if (t.put v).1.2 then t.size + 1 else t.size := by
  have hsize (t : Table α) : t.size = t.toList.length := Array.length_toList.symm
  rw [hsize, hsize, toList_put]
  by_cases h : v ∈ t.toList
  · obtain ⟨i, -, hp⟩ := put_of_mem h
    simp [hp, h]
  · simp [put_of_not_mem h, h]

/-- The table holds one more value as a list of arrivals does. -/
theorem toList_put_eq_eraseDups {l : List α} (h : t.toList = l.eraseDups) (v : α) :
    (t.put v).2.toList = (l ++ [v]).eraseDups := by
  rw [toList_put, h, List.eraseDups_append]
  by_cases hv : v ∈ l <;> simp [List.removeAll, List.eraseDups_cons, hv]

/-- The table that holds the values of a list. -/
def ofList (l : List α) : Table α := l.foldl (fun t v => (t.put v).2) empty

theorem toList_foldl_put {l : List α} (h : t.toList = l.eraseDups) (m : List α) :
    (m.foldl (fun t v => (t.put v).2) t).toList = (l ++ m).eraseDups := by
  induction m generalizing t l with
  | nil => rwa [List.append_nil]
  | cons v m ih =>
    rw [List.foldl_cons, ih (toList_put_eq_eraseDups h v), List.append_assoc, List.singleton_append]

/-- Values come in the order of their first occurrence. -/
theorem toList_ofList (l : List α) : (ofList l).toList = l.eraseDups :=
  toList_foldl_put (l := []) rfl l

end Table

end CostCTL
