/-!
# Sorted maps

Finite maps kept as lists of entries with strictly ascending keys, so that a map has exactly one
representation and its entries come in the order of the keys.
-/

namespace CostCTL

structure SortedMap (κ β : Type) [Ord κ] where
  entries : List (κ × β)
  ascending : entries.Pairwise (fun a b => compare a.1 b.1 = .lt)

namespace SortedMap

variable {κ β : Type} [Ord κ]

theorem ext {m n : SortedMap κ β} (h : m.entries = n.entries) : m = n := by
  cases m; cases n; cases h; rfl

instance [DecidableEq κ] [DecidableEq β] : DecidableEq (SortedMap κ β) := fun m n =>
  if h : m.entries = n.entries then isTrue (ext h) else isFalse fun e => h (congrArg entries e)

/-- Maps compare entry by entry, the key of an entry before its value. -/
instance [Ord β] : Ord (SortedMap κ β) :=
  ⟨fun m n => m.entries.compareLex (compareLex (compareOn (·.1)) (compareOn (·.2))) n.entries⟩

def empty : SortedMap κ β := ⟨[], .nil⟩

instance : EmptyCollection (SortedMap κ β) := ⟨empty⟩
instance : Inhabited (SortedMap κ β) := ⟨empty⟩

@[simp] theorem entries_empty : (∅ : SortedMap κ β).entries = [] := rfl

def isEmpty (m : SortedMap κ β) : Bool := m.entries.isEmpty

def get? [BEq κ] (m : SortedMap κ β) (k : κ) : Option β := m.entries.lookup k

@[simp] theorem get?_empty [BEq κ] (k : κ) : (∅ : SortedMap κ β).get? k = none := rfl

/-- Write `v` at `k` in a list with ascending keys. If there is a value at `k` already, `f` makes
the new one of it. -/
def place (k : κ) (v : β) (f : β → β) : List (κ × β) → List (κ × β)
  | [] => [(k, v)]
  | e :: l => match compare k e.1 with
    | .lt => (k, v) :: e :: l
    | .eq => (k, f e.2) :: l
    | .gt => e :: place k v f l

theorem fst_mem_place {k : κ} {v : β} {f : β → β} {l : List (κ × β)} {x : κ × β}
    (h : x ∈ place k v f l) : x.1 = k ∨ x ∈ l := by
  induction l with
  | nil => simp_all [place]
  | cons e l ih =>
    unfold place at h
    split at h <;> simp_all only [List.mem_cons] <;> grind

theorem lookup_eq_none_of_lt [Std.LawfulEqOrd κ] [BEq κ] [LawfulBEq κ] {k : κ}
    {l : List (κ × β)} (h : ∀ e ∈ l, compare k e.1 = .lt) : l.lookup k = none := by
  refine List.lookup_eq_none_iff.mpr fun e he => ?_
  rw [bne_iff_ne]
  intro hk
  exact absurd (hk ▸ h e he) (by simp)

theorem get?_eq_some_iff [Std.LawfulEqOrd κ] [BEq κ] [LawfulBEq κ] {m : SortedMap κ β}
    {k : κ} {v : β} : m.get? k = some v ↔ (k, v) ∈ m.entries := by
  rw [get?, List.lookup_eq_some_iff]
  constructor
  · rintro ⟨before, after, h, -⟩
    simp [h]
  · intro h
    obtain ⟨before, after, hl⟩ := List.append_of_mem h
    refine ⟨before, after, hl, fun e he => bne_iff_ne.mpr ?_⟩
    rintro rfl
    have hlt := (List.pairwise_append.mp (hl ▸ m.ascending)).2.2 e he (e.1, v) (by simp)
    cases (Std.ReflOrd.compare_self (a := e.1)).symm.trans hlt

section Lawful

variable [Std.LawfulEqOrd κ] [Std.TransOrd κ]

theorem ascending_place {k : κ} {v : β} {f : β → β} {l : List (κ × β)}
    (h : l.Pairwise (fun a b => compare a.1 b.1 = .lt)) :
    (place k v f l).Pairwise (fun a b => compare a.1 b.1 = .lt) := by
  induction l with
  | nil => simp [place]
  | cons e l ih =>
    have ⟨he, hl⟩ := List.pairwise_cons.mp h
    unfold place
    split
    · next hk =>
      refine List.pairwise_cons.mpr ⟨fun x hx => ?_, h⟩
      rcases List.mem_cons.mp hx with rfl | hx
      · exact hk
      · exact Std.TransCmp.lt_trans hk (he x hx)
    · next hk =>
      rw [← Std.LawfulEqOrd.eq_of_compare hk] at he
      exact List.pairwise_cons.mpr ⟨he, hl⟩
    · next hk =>
      refine List.pairwise_cons.mpr ⟨fun x hx => ?_, ih hl⟩
      rcases fst_mem_place hx with e' | hx
      · rw [e']; exact Std.OrientedCmp.lt_of_gt hk
      · exact he x hx

/-- Only the value at `k` changes. -/
theorem lookup_place [BEq κ] [LawfulBEq κ] {k x : κ} {v : β} {f : β → β} {l : List (κ × β)}
    (h : l.Pairwise (fun a b => compare a.1 b.1 = .lt)) :
    (place k v f l).lookup x = if x == k then some ((l.lookup k).elim v f) else l.lookup x := by
  induction l with
  | nil => by_cases hx : x == k <;> simp [place, List.lookup_cons, hx]
  | cons e l ih =>
    obtain ⟨a, w⟩ := e
    have ⟨he, hl⟩ := List.pairwise_cons.mp h
    unfold place
    split
    · next hk =>
      have absent : ((a, w) :: l).lookup k = none := lookup_eq_none_of_lt fun e he' => by
        rcases List.mem_cons.mp he' with rfl | he'
        · exact hk
        · exact Std.TransCmp.lt_trans hk (he e he')
      rw [absent, List.lookup_cons]
      by_cases hx : x == k <;> simp [hx]
    · next hk =>
      obtain rfl : k = a := Std.LawfulEqOrd.eq_of_compare hk
      by_cases hx : x == k <;> simp [List.lookup_cons, hx]
    · next hk =>
      have hka : (k == a) = false := by
        rw [beq_eq_false_iff_ne]
        rintro rfl
        simp at hk
      rw [List.lookup_cons, List.lookup_cons, List.lookup_cons, ih hl, hka]
      by_cases hx : x == a
      · have hne : (x == k) = false := by
          rw [eq_of_beq hx, beq_eq_false_iff_ne]
          rintro rfl
          simp at hka
        simp [hx, hne]
      · simp [hx]

/-- Write `v` at `k`, over any earlier value. -/
def insert (m : SortedMap κ β) (k : κ) (v : β) : SortedMap κ β :=
  ⟨place k v (fun _ => v) m.entries, ascending_place m.ascending⟩

@[simp] theorem get?_insert [BEq κ] [LawfulBEq κ] (m : SortedMap κ β) (k x : κ) (v : β) :
    (m.insert k v).get? x = if x == k then some v else m.get? x := by
  refine (lookup_place m.ascending).trans ?_
  cases m.entries.lookup k <;> rfl

/-- Write `v` at `k`, unless there is a value already. -/
def insertNew (m : SortedMap κ β) (k : κ) (v : β) : SortedMap κ β :=
  ⟨place k v id m.entries, ascending_place m.ascending⟩

@[simp] theorem get?_insertNew [BEq κ] [LawfulBEq κ] (m : SortedMap κ β) (k x : κ) (v : β) :
    (m.insertNew k v).get? x = if x == k then some ((m.get? k).getD v) else m.get? x := by
  refine (lookup_place m.ascending).trans ?_
  rw [get?]
  cases m.entries.lookup k <;> rfl

/-- The map with these entries. Of several entries for one key the last one counts, so they are
entered from the last to the first. -/
def ofList (l : List (κ × β)) : SortedMap κ β := l.foldr (fun e m => m.insertNew e.1 e.2) ∅

theorem get?_ofList [BEq κ] [LawfulBEq κ] (l : List (κ × β)) (x : κ) :
    (ofList l).get? x = l.reverse.lookup x := by
  induction l with
  | nil => rfl
  | cons e l ih =>
    obtain ⟨k, v⟩ := e
    have step : ofList ((k, v) :: l) = (ofList l).insertNew k v := rfl
    rw [step, get?_insertNew, List.reverse_cons, List.lookup_append, ← ih]
    by_cases h : x == k
    · obtain rfl := eq_of_beq h
      cases (ofList l).get? x <;> simp
    · cases (ofList l).get? x <;> simp [List.lookup_cons, h]

end Lawful

end SortedMap

end CostCTL
