/-!
# Double-ended queues

A queue that grows at the back and is taken from at either end, kept as two lists.
-/

namespace CostCTL

structure Deque (α : Type) where
  /-- the front part, first entry first -/
  front : List α
  /-- the back part, last entry first -/
  back : List α
  deriving Repr

namespace Deque

variable {α : Type}

def empty : Deque α := ⟨[], []⟩

instance : Inhabited (Deque α) := ⟨empty⟩

def toList (d : Deque α) : List α := d.front ++ d.back.reverse

def pushBack (d : Deque α) (a : α) : Deque α := { d with back := a :: d.back }

def popBack? (d : Deque α) : Option (α × Deque α) :=
  match d.back with
  | a :: back => some (a, { d with back })
  | [] => match d.front.reverse with
    | a :: back => some (a, ⟨[], back⟩)
    | [] => none

def popFront? (d : Deque α) : Option (α × Deque α) :=
  match d.front with
  | a :: front => some (a, { d with front })
  | [] => match d.back.reverse with
    | a :: front => some (a, ⟨front, []⟩)
    | [] => none

@[simp] theorem toList_empty : (empty : Deque α).toList = [] := rfl

@[simp] theorem toList_pushBack (d : Deque α) (a : α) :
    (d.pushBack a).toList = d.toList ++ [a] := by
  simp [toList, pushBack]

/-- The back entry is the last one, and the rest stays. -/
theorem toList_eq_of_popBack? {d e : Deque α} {a : α} (h : d.popBack? = some (a, e)) :
    d.toList = e.toList ++ [a] := by
  obtain ⟨front, back⟩ := d
  cases back with
  | cons b back =>
    simp only [popBack?, Option.some.injEq, Prod.mk.injEq] at h
    obtain ⟨rfl, rfl⟩ := h
    simp [toList]
  | nil =>
    cases hr : front.reverse with
    | nil => simp [popBack?, hr] at h
    | cons b back =>
      simp only [popBack?, hr, Option.some.injEq, Prod.mk.injEq] at h
      obtain ⟨rfl, rfl⟩ := h
      have : front = (b :: back).reverse := by rw [← hr, List.reverse_reverse]
      simp [toList, this]

/-- The front entry is the first one, and the rest stays. -/
theorem toList_eq_of_popFront? {d e : Deque α} {a : α} (h : d.popFront? = some (a, e)) :
    d.toList = a :: e.toList := by
  obtain ⟨front, back⟩ := d
  cases front with
  | cons b front =>
    simp only [popFront?, Option.some.injEq, Prod.mk.injEq] at h
    obtain ⟨rfl, rfl⟩ := h
    simp [toList]
  | nil =>
    cases hr : back.reverse with
    | nil => simp [popFront?, hr] at h
    | cons b front =>
      simp only [popFront?, hr, Option.some.injEq, Prod.mk.injEq] at h
      obtain ⟨rfl, rfl⟩ := h
      simp [toList, hr]

/-- There is no back entry only if there is no entry. -/
theorem toList_eq_nil_of_popBack? {d : Deque α} (h : d.popBack? = none) : d.toList = [] := by
  obtain ⟨front, back⟩ := d
  cases back with
  | cons b back => simp [popBack?] at h
  | nil =>
    cases hr : front.reverse with
    | nil => simpa [toList] using hr
    | cons b back => simp [popBack?, hr] at h

theorem toList_eq_nil_of_popFront? {d : Deque α} (h : d.popFront? = none) : d.toList = [] := by
  obtain ⟨front, back⟩ := d
  cases front with
  | cons b front => simp [popFront?] at h
  | nil =>
    cases hr : back.reverse with
    | nil => simp [toList, hr]
    | cons b front => simp [popFront?, hr] at h

end Deque

end CostCTL
