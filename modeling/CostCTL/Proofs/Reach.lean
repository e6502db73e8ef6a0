import CostCTL.Proofs.Scope

/-!
# What a search can reach

Whatever session it belongs to, the work on a requirement is about parts of the requirement, of which
there are finitely many (`Formula.parts`). Work that is linked to a revisit is about parts of what the
revisit requires, so that linked work is about ever lower formulas.
-/

namespace CostCTL

variable {g : Kripke} {s t : Search} {f : Formula}

namespace Formula

/-- The parts of a formula that is checked within a window. -/
def parts : Formula → Window → List (Formula × Window)
  | atom a, w => [(atom a, w)]
  | not f, w => (not f, w) :: f.parts w
  | and l r, w => (and l r, w) :: (l.parts w ++ r.parts w)
  | or l r, w => (or l r, w) :: (l.parts w ++ r.parts w)
  | implies l r, w => (implies l r, w) :: (not l, w) :: (l.parts w ++ r.parts w)
  | always q f, w => (always q f, w) :: f.parts w
  | eventually q f, w => (eventually q f, w) :: f.parts w
  | next q f, w => (next q f, w) :: f.parts w
  | strongUntil q l r, w => (strongUntil q l r, w) :: (l.parts w ++ r.parts w)
  | weakUntil q l r, w => (weakUntil q l r, w) :: (l.parts w ++ r.parts w)
  | within f v, w => (within f v, w) ::
    match w.merge v with
    | .ok u => f.parts u
    | .error _ => []

theorem mem_parts_self (f : Formula) (w : Window) : (f, w) ∈ f.parts w := by
  cases f <;> simp [parts]

theorem parts_operands {e : Formula} (h : e ∈ f.operands) (w : Window) :
    e.parts w ⊆ (f.parts w).tail := by
  cases f with
  | atom | within => cases h
  | not | always | eventually | next =>
    obtain rfl := List.mem_singleton.mp h
    exact List.Subset.refl _
  | and l r | or l r | strongUntil q l r | weakUntil q l r =>
    simp only [operands, List.mem_cons, List.not_mem_nil, or_false] at h
    rcases h with rfl | rfl
    · exact List.subset_append_left _ _
    · exact List.subset_append_right _ _
  | implies l r =>
    simp only [operands, List.mem_cons, List.not_mem_nil, or_false] at h
    refine List.Subset.trans ?_ (List.subset_cons_self _ _)
    rcases h with rfl | rfl
    · exact List.subset_append_left _ _
    · exact List.subset_append_right _ _

/-- The parts below the formula itself are parts of an operand, or the negation of one. -/
theorem mem_tail_parts {e : Formula} {w u : Window} (h : (e, u) ∈ (f.parts w).tail) :
    (∃ f' ∈ f.operands, (e, u) ∈ f'.parts w) ∨
    (∃ l r, f = implies l r ∧ (e, u) = (not l, w)) ∨
    ∃ f' v w', f = within f' v ∧ w.merge v = .ok w' ∧ (e, u) ∈ f'.parts w' := by
  cases f with
  | atom => cases h
  | not f | always q f | eventually q f | next q f =>
    exact .inl ⟨f, by simp [operands], h⟩
  | and l r | or l r | strongUntil q l r | weakUntil q l r =>
    rcases List.mem_append.mp h with h | h
    · exact .inl ⟨l, by simp [operands], h⟩
    · exact .inl ⟨r, by simp [operands], h⟩
  | implies l r =>
    rcases List.mem_cons.mp h with h | h
    · exact .inr (.inl ⟨l, r, rfl, h⟩)
    · rcases List.mem_append.mp h with h | h
      · exact .inl ⟨l, by simp [operands], h⟩
      · exact .inl ⟨r, by simp [operands], h⟩
  | within f v =>
    simp only [parts, List.tail_cons] at h
    split at h
    · next w' hm => exact .inr (.inr ⟨f, v, w', rfl, hm, h⟩)
    · cases h

/-- Parts of parts are parts. -/
theorem parts_subset {e : Formula} {w u : Window} (h : (e, u) ∈ f.parts w) :
    e.parts u ⊆ f.parts w := by
  induction hn : f.size using Nat.strongRecOn generalizing f w with
  | ind n ih =>
    have hcons : f.parts w = (f, w) :: (f.parts w).tail := by cases f <;> rfl
    rw [hcons] at h
    rcases List.mem_cons.mp h with heq | h
    · cases heq
      exact List.Subset.refl _
    · rw [hcons]
      refine List.Subset.trans ?_ (List.subset_cons_self _ _)
      rcases mem_tail_parts h with ⟨f', hf', h⟩ | ⟨l, r, rfl, heq⟩ | ⟨f', v, w', rfl, hm, h⟩
      · exact List.Subset.trans (ih _ (hn ▸ size_lt_of_mem_operands hf') h rfl)
          (parts_operands hf' w)
      · cases heq
        exact List.cons_subset_cons _ (List.subset_append_left _ _)
      · simp only [parts, List.tail_cons, hm]
        refine ih _ ?_ h rfl
        rw [← hn, size]
        omega

theorem Part.mem_parts {e : Formula} {w u : Window} (h : Part f w e u) : (e, u) ∈ f.parts w := by
  induction h with
  | self => exact mem_parts_self f w
  | operand _ he ih =>
    exact parts_subset ih (List.mem_of_mem_tail (parts_operands he _ (mem_parts_self _ _)))
  | negated _ ih => exact parts_subset ih (by simp [parts])
  | inner _ hm ih =>
    refine parts_subset ih ?_
    simp only [parts, hm]
    exact List.mem_cons_of_mem _ (mem_parts_self _ _)

theorem length_parts_lt (f : Formula) (w : Window) : (f.parts w).length < 2 * f.size := by
  induction f generalizing w with
  | atom => simp [parts, size]
  | not f ih | always q f ih | eventually q f ih | next q f ih =>
    have := ih w
    simp only [parts, size, List.length_cons]
    omega
  | and l r ihl ihr | or l r ihl ihr | implies l r ihl ihr | strongUntil q l r ihl ihr
    | weakUntil q l r ihl ihr =>
    have := ihl w
    have := ihr w
    simp only [parts, size, List.length_cons, List.length_append]
    omega
  | within f v ih =>
    simp only [parts, size, List.length_cons]
    split
    · next u _ =>
      have := ih u
      omega
    · have := f.size_pos
      simp only [List.length_nil]
      omega

theorem height_lt_of_mem_operands {e : Formula} (h : e ∈ f.operands) : e.height < f.height := by
  cases f <;> simp [operands] at h <;> (try obtain rfl | rfl := h) <;> simp [height] <;> omega

theorem Part.height_le {e : Formula} {w u : Window} (h : Part f w e u) : e.height ≤ f.height := by
  induction h with
  | self => exact Nat.le_refl _
  | operand _ he ih => exact Nat.le_trans (Nat.le_of_lt (height_lt_of_mem_operands he)) ih
  | negated _ ih | inner _ _ ih =>
    simp only [height] at ih ⊢
    omega

end Formula

open Formula

/-! ### Linked work -/

/-- Formulas of this height may be linked so. -/
def Search.Room (f : Formula) (s : Search) : Option RevisitId → Nat → Prop
  | none, n => n ≤ f.height
  | some i, n => ∃ e, s.record? i = some e ∧ n ≤ e.revisit.precondition.formula.height

/-- The formulas that are checked for the obligation itself are of such heights. -/
def Obligation.Low (P : Nat → Prop) : Obligation → Prop
  | .here f | .successors f | .step f | .constrain f _ => P f.height
  | .revisit o p => p.kind = .ignored ∨ o.Low P

theorem Search.Room.mono {link : Option RevisitId} {m n : Nat} (h : s.Room f link n) (hmn : m ≤ n) :
    s.Room f link m := by
  cases link with
  | none => exact Nat.le_trans hmn h
  | some i =>
    obtain ⟨e, he, hn⟩ := h
    exact ⟨e, he, Nat.le_trans hmn hn⟩

theorem Search.Room.extends {link : Option RevisitId} {n : Nat} (h : s.Room f link n)
    (he : s.Extends t) : t.Room f link n := by
  cases link with
  | none => exact h
  | some i =>
    obtain ⟨e, hi, hn⟩ := h
    obtain ⟨b, hb, -⟩ := he.entry i e hi
    exact ⟨_, hb, hn⟩

theorem Obligation.Low.imp {P Q : Nat → Prop} {o : Obligation} (h : o.Low P)
    (hPQ : ∀ n, P n → Q n) : o.Low Q := by
  induction o with
  | here | successors | step | constrain => exact hPQ _ h
  | revisit o p ih => exact Or.imp id ih h

theorem Formula.low_unfoldTemporal {P : Nat → Prop} {p : Position} {o : Obligation}
    (hP : ∀ m n, m ≤ n → P n → P m) (hf : P f.height) (hu : f.isUniversal = true)
    (h : f.unfoldTemporal p = .obligation o) : o.Low P := by
  have hop {e : Formula} (he : e ∈ f.operands) : P e.height :=
    hP _ _ (Nat.le_of_lt (height_lt_of_mem_operands he)) hf
  have hproceed {looped : Unfolding} {inside : Obligation}
      (h : proceed p f looped inside = .obligation o) (hl : looped ≠ .obligation o)
      (hi : inside.Low P) : o.Low P := by
    unfold proceed at h
    split at h
    · exact absurd h hl
    · split at h
      · cases h
        exact hf
      · cases h
        exact hi
  cases f with
  | atom => cases h
  | not e =>
    cases h
    exact .inl rfl
  | and l r | or l r | implies l r =>
    cases h
    exact .inr (hop (e := r) (by simp [operands]))
  | always q e | eventually q e =>
    cases q with
    | all => exact hproceed h (by simp) (.inr hf)
    | some => cases hu
  | next q e =>
    cases q with
    | all =>
      cases h
      exact hop (e := e) (by simp [operands])
    | some => cases hu
  | strongUntil q l r | weakUntil q l r =>
    cases q with
    | all => exact hproceed h (by simp) (.inr (.inr hf))
    | some => cases hu
  | within e v =>
    cases h
    refine hP _ _ ?_ hf
    simp [height]

/-- Work is about parts of the requirement, as low as its link tells. -/
def Search.Reached (f : Formula) (s : Search) : Work → Prop
  | .job j => Part f ∅ j.formula j.window ∧ s.Room f j.link j.formula.height
  | .todo c link o => o.Fits (f, ∅) c.window ∧ o.Low (s.Room f link)
  | .done .. | .fail .. | .outcome .. => True

theorem Search.Reached.react {c : Context} {link : Option RevisitId} {o : Obligation}
    {p : Precondition} (h : s.Reached f (.todo c link (.revisit o p))) (finding : Finding) :
    s.Reached f ((p.react c finding).work c link o) := by
  have hproceed (hk : p.kind ≠ .ignored) : s.Reached f (.todo c link o) :=
    ⟨h.1.2.2.resolve_left hk, h.2.resolve_left hk⟩
  cases finding with
  | holds =>
    unfold Precondition.react
    cases hk : p.kind with
    | required => exact hproceed (by simp [hk])
    | skip | ignored => trivial
  | fails x =>
    unfold Precondition.react
    cases hk : p.kind with
    | skip => exact hproceed (by simp [hk])
    | required | ignored => trivial
  | budget x => trivial

theorem Search.reached_hands (g : Kripke) (base : Nat) (hf : f.isUniversal = true) :
    Hands g base (InScope f) (Reached f) where
  mono := by
    intro s t x h hx
    cases x with
    | job j => exact ⟨hx.1, hx.2.extends h⟩
    | todo c link o => exact ⟨hx.1, hx.2.imp fun n hn => hn.extends h⟩
    | done | fail | outcome => trivial
  unfold := by
    intro s j node u _ _ _ h _ hu
    cases u with
    | pass | fail => trivial
    | obligation o =>
      have hu := (unfoldTemporal_of_unfold hu).2
      have hfits : o.Fits (f, ∅) j.window := fits_unfoldTemporal h.1 hf hu
      exact ⟨hfits, low_unfoldTemporal (fun m n hmn hn => hn.mono hmn) h.2 (h.1.isUniversal hf) hu⟩
  spawn := by
    intro s c link o jobs _ _ _ h hj j hjm
    cases o with
    | here e =>
      cases hj
      obtain rfl := List.mem_singleton.mp hjm
      exact h
    | successors e | step e =>
      cases hj
      obtain ⟨d, -, rfl⟩ := List.mem_map.mp hjm
      exact h
    | constrain e v =>
      rw [Obligation.jobs?] at hj
      split at hj
      · next hm =>
        cases hj
        obtain rfl := List.mem_singleton.mp hjm
        exact ⟨Part.inner h.1 hm, h.2⟩
      · cases hj
    | revisit o p => cases hj
  judge := by
    intro s c link o p node judgement _ _ h _ _ _
    exact h.react _
  answer := by
    intro s c link o p i result finding _ _ h _ _ _ _ _ _ _ _
    exact h.react _
  require := by
    intro s c link o p _ _ h _ _
    exact ⟨h.1.1, _, Numbered.get?_concat_self _ _, Nat.le_refl _⟩
  inquire := by
    intro s c link o p _ _ h _ _ _
    exact ⟨h.1.1, Part.height_le h.1.1⟩
  resume := by
    intro s c i e _ hp _ hi _ _ h _
    obtain ⟨e', he', -, hk⟩ := hp i rfl
    obtain rfl := Option.some.inj (hi.symm.trans he')
    exact ⟨h.1.2.2.resolve_left (by simp [hk]), h.2.resolve_left (by simp [hk])⟩
  exceed := by intros; trivial
  settle := by intros; trivial
  pass := by intros; trivial

theorem Course.reached {order : PendingOrder} {fs : List Formula} {past : Search}
    (h : Course g order fs past s) : s.All past.revisits.length (s.Reached (current fs)) :=
  h.all (Q := fun f s => s.Reached f)
    (fun f _ base => Search.reached_hands g base (isUniversal_universal f)) (fun _ hc _ => hc.inScope)
    (fun _ _ _ _ _ => ⟨.self, Nat.le_refl _⟩) (fun _ _ _ _ _ _ => trivial)
    fun _ hc _ hs => hc.inScope.parked_of_idle hc.valid_accounts.1 hc.valid_accounts.2 hs

end CostCTL
