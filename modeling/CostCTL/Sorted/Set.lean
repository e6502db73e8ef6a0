/-!
# Sorted sets

Finite sets kept as strictly ascending lists. A set has exactly one representation, so two sets
with the same members are equal (`SortedSet.ext_mem`), and listing the members gives them in the
order of their type. Two sets are joined in one pass over both, and a list is made a set by joining
its members two by two.
-/

namespace CostCTL

structure SortedSet (α : Type) [Ord α] where
  toList : List α
  ascending : toList.Pairwise (fun a b => compare a b = .lt)

namespace SortedSet

variable {α : Type} [Ord α]

theorem ext {s t : SortedSet α} (h : s.toList = t.toList) : s = t := by
  cases s; cases t; cases h; rfl

instance [DecidableEq α] : DecidableEq (SortedSet α) := fun s t =>
  if h : s.toList = t.toList then isTrue (ext h) else isFalse fun e => h (congrArg toList e)

instance : Membership α (SortedSet α) := ⟨fun s a => a ∈ s.toList⟩

instance [DecidableEq α] (a : α) (s : SortedSet α) : Decidable (a ∈ s) :=
  inferInstanceAs (Decidable (a ∈ s.toList))

theorem mem_iff {a : α} {s : SortedSet α} : a ∈ s ↔ a ∈ s.toList := Iff.rfl

def empty : SortedSet α := ⟨[], .nil⟩

instance : EmptyCollection (SortedSet α) := ⟨empty⟩
instance : Inhabited (SortedSet α) := ⟨empty⟩

@[simp] theorem toList_empty : (∅ : SortedSet α).toList = [] := rfl
@[simp] theorem not_mem_empty (a : α) : a ∉ (∅ : SortedSet α) := nofun

def singleton (a : α) : SortedSet α := ⟨[a], List.pairwise_singleton _ a⟩

@[simp] theorem mem_singleton {a x : α} : x ∈ singleton a ↔ x = a := List.mem_singleton

def size (s : SortedSet α) : Nat := s.toList.length

def isEmpty (s : SortedSet α) : Bool := s.toList.isEmpty

/-- Put `a` in its place of an ascending list, unless it is there already. -/
def place (a : α) : List α → List α
  | [] => [a]
  | b :: l => match compare a b with
    | .lt => a :: b :: l
    | .eq => b :: l
    | .gt => b :: place a l

/-- Merge `a` and what goes on by `rest` into an ascending list. -/
def mergeInto (a : α) (rest : List α → List α) : List α → List α
  | [] => a :: rest []
  | b :: m => match compare a b with
    | .lt => a :: rest (b :: m)
    | .eq => a :: rest m
    | .gt => b :: mergeInto a rest m

/-- Merge two ascending lists. -/
def merge : List α → List α → List α
  | [] => fun m => m
  | a :: l => mergeInto a (merge l)

/-- Ascending lists with the same members are the same list. -/
theorem eq_of_ascending [Std.TransOrd α] {l m : List α}
    (hl : l.Pairwise (fun a b => compare a b = .lt))
    (hm : m.Pairwise (fun a b => compare a b = .lt)) (h : ∀ x, x ∈ l ↔ x ∈ m) : l = m := by
  have asymm : ∀ {a b : α}, compare a b = .lt → compare b a = .lt → False := fun h₁ h₂ => by
    have := Std.OrientedCmp.gt_of_lt h₁
    simp [this] at h₂
  induction l generalizing m with
  | nil =>
    cases m with
    | nil => rfl
    | cons b m => exact absurd ((h b).mpr List.mem_cons_self) List.not_mem_nil
  | cons a l ih =>
    cases m with
    | nil => exact absurd ((h a).mp List.mem_cons_self) List.not_mem_nil
    | cons b m =>
      have ⟨ha, hl'⟩ := List.pairwise_cons.mp hl
      have ⟨hb, hm'⟩ := List.pairwise_cons.mp hm
      have hab : a = b := by
        rcases List.mem_cons.mp ((h a).mp List.mem_cons_self) with e | ham
        · exact e
        · rcases List.mem_cons.mp ((h b).mpr List.mem_cons_self) with e | hbl
          · exact e.symm
          · exact (asymm (hb a ham) (ha b hbl)).elim
      subst hab
      have self : ∀ {x : α}, compare x x = .lt → False := fun h => asymm h h
      refine congrArg _ (ih hl' hm' fun x => ⟨fun hx => ?_, fun hx => ?_⟩)
      · rcases List.mem_cons.mp ((h x).mp (List.mem_cons_of_mem _ hx)) with rfl | hx'
        · exact (self (ha x hx)).elim
        · exact hx'
      · rcases List.mem_cons.mp ((h x).mpr (List.mem_cons_of_mem _ hx)) with rfl | hx'
        · exact (self (hb x hx)).elim
        · exact hx'

theorem ext_mem [Std.TransOrd α] {s t : SortedSet α} (h : ∀ x, x ∈ s ↔ x ∈ t) : s = t :=
  ext (eq_of_ascending s.ascending t.ascending h)

section Lawful

variable [Std.LawfulEqOrd α]

theorem mem_place {a x : α} {l : List α} : x ∈ place a l ↔ x = a ∨ x ∈ l := by
  induction l with
  | nil => simp [place]
  | cons b l ih =>
    unfold place
    split
    · simp
    · next h =>
      cases Std.LawfulEqOrd.eq_of_compare h
      simp
    · simp only [List.mem_cons, ih]
      grind

theorem mem_mergeInto {a x : α} {l m : List α} {rest : List α → List α}
    (h : ∀ m, x ∈ rest m ↔ x ∈ l ∨ x ∈ m) : x ∈ mergeInto a rest m ↔ x ∈ a :: l ∨ x ∈ m := by
  induction m with
  | nil => simp [mergeInto, h]
  | cons b m ih =>
    unfold mergeInto
    split
    · simp only [List.mem_cons, h]; grind
    · next hab =>
      cases Std.LawfulEqOrd.eq_of_compare hab
      simp only [List.mem_cons, h]; grind
    · simp only [List.mem_cons, ih]; grind

theorem mem_merge {x : α} {l m : List α} : x ∈ merge l m ↔ x ∈ l ∨ x ∈ m := by
  induction l generalizing m with
  | nil => simp [merge]
  | cons a l ih => exact mem_mergeInto fun _ => ih

variable [Std.TransOrd α]

theorem ascending_place {a : α} {l : List α}
    (h : l.Pairwise (fun a b => compare a b = .lt)) :
    (place a l).Pairwise (fun a b => compare a b = .lt) := by
  induction l with
  | nil => simp [place]
  | cons b l ih =>
    have ⟨hb, hl⟩ := List.pairwise_cons.mp h
    unfold place
    split
    · next hab =>
      refine List.pairwise_cons.mpr ⟨fun x hx => ?_, h⟩
      rcases List.mem_cons.mp hx with rfl | hx
      · exact hab
      · exact Std.TransCmp.lt_trans hab (hb x hx)
    · exact h
    · next hab =>
      refine List.pairwise_cons.mpr ⟨fun x hx => ?_, ih hl⟩
      rcases mem_place.mp hx with rfl | hx
      · exact Std.OrientedCmp.lt_of_gt hab
      · exact hb x hx

def insert (s : SortedSet α) (a : α) : SortedSet α := ⟨place a s.toList, ascending_place s.ascending⟩

@[simp] theorem mem_insert {s : SortedSet α} {a x : α} : x ∈ s.insert a ↔ x = a ∨ x ∈ s :=
  mem_place

theorem ascending_mergeInto {a : α} {l m : List α} {rest : List α → List α}
    (hmem : ∀ x m, x ∈ rest m ↔ x ∈ l ∨ x ∈ m)
    (hrest : ∀ m : List α, m.Pairwise (fun a b => compare a b = .lt) →
      (rest m).Pairwise (fun a b => compare a b = .lt))
    (hl : ∀ x ∈ l, compare a x = .lt) (hm : m.Pairwise (fun a b => compare a b = .lt)) :
    (mergeInto a rest m).Pairwise (fun a b => compare a b = .lt) := by
  induction m with
  | nil =>
    refine List.pairwise_cons.mpr ⟨fun x hx => ?_, hrest [] .nil⟩
    exact hl x (by simpa using (hmem x []).mp hx)
  | cons b m ih =>
    have ⟨hb, hm'⟩ := List.pairwise_cons.mp hm
    unfold mergeInto
    split
    · next hab =>
      refine List.pairwise_cons.mpr ⟨fun x hx => ?_, hrest _ hm⟩
      rcases (hmem x _).mp hx with hx | hx
      · exact hl x hx
      · rcases List.mem_cons.mp hx with rfl | hx
        · exact hab
        · exact Std.TransCmp.lt_trans hab (hb x hx)
    · next hab =>
      cases Std.LawfulEqOrd.eq_of_compare hab
      refine List.pairwise_cons.mpr ⟨fun x hx => ?_, hrest _ hm'⟩
      exact ((hmem x _).mp hx).elim (hl x) (hb x)
    · next hab =>
      have hba := Std.OrientedCmp.lt_of_gt hab
      refine List.pairwise_cons.mpr ⟨fun x hx => ?_, ih hm'⟩
      rcases (mem_mergeInto (hmem x)).mp hx with hx | hx
      · rcases List.mem_cons.mp hx with rfl | hx
        · exact hba
        · exact Std.TransCmp.lt_trans hba (hl x hx)
      · exact hb x hx

theorem ascending_merge {l m : List α} (hl : l.Pairwise (fun a b => compare a b = .lt))
    (hm : m.Pairwise (fun a b => compare a b = .lt)) :
    (merge l m).Pairwise (fun a b => compare a b = .lt) := by
  induction l generalizing m with
  | nil => exact hm
  | cons a l ih =>
    have ⟨ha, hl'⟩ := List.pairwise_cons.mp hl
    exact ascending_mergeInto (fun _ _ => mem_merge) (fun _ hm => ih hl' hm) ha hm

def union (s t : SortedSet α) : SortedSet α :=
  ⟨merge s.toList t.toList, ascending_merge s.ascending t.ascending⟩

instance : Union (SortedSet α) := ⟨union⟩

@[simp] theorem mem_union {s t : SortedSet α} {x : α} : x ∈ s ∪ t ↔ x ∈ s ∨ x ∈ t := mem_merge

/-- Join neighbours. -/
def pairUp : List (SortedSet α) → List (SortedSet α)
  | s :: t :: l => (s ∪ t) :: pairUp l
  | l => l

theorem exists_mem_pairUp {l : List (SortedSet α)} {x : α} :
    (∃ s ∈ pairUp l, x ∈ s) ↔ ∃ s ∈ l, x ∈ s := by
  fun_induction pairUp l with
  | case1 s t l ih => simp only [List.mem_cons, exists_eq_or_imp, mem_union, ih, or_assoc]
  | case2 => rfl

/-- Join neighbours `n` times over, and then whatever is left. -/
def unionAll : Nat → List (SortedSet α) → SortedSet α
  | 0, l => l.foldr (· ∪ ·) ∅
  | n + 1, l => unionAll n (pairUp l)

@[simp] theorem mem_unionAll {n : Nat} {l : List (SortedSet α)} {x : α} :
    x ∈ unionAll n l ↔ ∃ s ∈ l, x ∈ s := by
  induction n generalizing l with
  | zero =>
    rw [unionAll]
    induction l with
    | nil => simp
    | cons s l ih => simp only [List.foldr_cons, mem_union, ih, List.mem_cons, exists_eq_or_imp]
  | succ n ih => rw [unionAll, ih, exists_mem_pairUp]

def ofList (l : List α) : SortedSet α := unionAll l.length (l.map singleton)

@[simp] theorem mem_ofList {l : List α} {x : α} : x ∈ ofList l ↔ x ∈ l := by
  rw [ofList, mem_unionAll]
  constructor
  · rintro ⟨s, hs, hx⟩
    obtain ⟨a, ha, rfl⟩ := List.mem_map.mp hs
    exact mem_singleton.mp hx ▸ ha
  · exact fun hx => ⟨singleton x, List.mem_map_of_mem hx, mem_singleton.mpr rfl⟩

end Lawful

end SortedSet

end CostCTL
