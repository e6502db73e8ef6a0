import CostCTL.Proofs.Iteration
import CostCTL.Proofs.Potential

/-!
# Every check ends

The potential of a search falls with every turn, so a requirement takes no more turns than its first
search has potential, which is less than the turns that it is given. A check therefore ends for a
reason: all requirements hold, one is violated, or something is wrong with a formula.
-/

namespace CostCTL

open Formula

variable {g : Kripke} {order : PendingOrder} {fs : List Formula} {past s t : Search}
  {settings : Settings} {r r' : Run} {f : Formula}

/-! ### Turns cost potential -/

/-- Whatever the search for the formula refers to is there, and it looks at parts of it only. -/
structure Search.Regular (g : Kripke) (f : Formula) (m : Nat) (s : Search) : Prop where
  valid : s.Valid g
  accounts : s.Accounts
  inScope : s.All m (s.InScope f)
  reached : s.All m (s.Reached f)

theorem Course.regular (h : Course g order fs past s) :
    s.Regular g (current fs) past.revisits.length :=
  ⟨h.valid_accounts.1, h.valid_accounts.2, h.inScope, h.reached⟩

namespace Search.Regular

variable {m : Nat}

theorem steady (hf : f.isUniversal = true) : Steady g (Regular g f m) where
  ready h := h.valid.ready h.accounts
  move h hm := ⟨hm.valid h.valid, hm.accounts h.valid h.accounts,
    hm.all h.valid h.accounts (inScope_hands g m f) (h.inScope.imp fun _ _ => trivial) h.inScope,
    hm.all h.valid h.accounts (reached_hands g m hf) h.inScope h.reached⟩

theorem potential_moves (h : s.Regular g f m) (hf : f.isUniversal = true) (hm : Moves g s t) :
    t.potential g f m ≤ s.potential g f m := by
  induction hm with
  | refl => exact Nat.le_refl _
  | step first _ ih =>
    exact Nat.le_trans (ih ((steady hf).move h first))
      (first.potential_le h.valid h.inScope h.reached hf)

theorem potential_turns (h : r.Shows (Regular g f m)) (hf : f.isUniversal = true) {k : Nat}
    (ht : Run.Turns g settings k r r') :
    (r'.view []).potential g f m + k ≤ (r.view []).potential g f m := by
  induction ht with
  | zero => exact Nat.le_refl _
  | @succ k r r₁ r₂ first _ ih =>
    have hrest := ih ((steady hf).turn h first)
    have hturn := (steady hf).turnsTo h settings
    rw [first] at hturn
    obtain ⟨-, u, hu, hm⟩ := hturn
    have hlt := hu.potential_lt (f := f) (m := m) h.search.valid rfl
    have hle := ((steady hf).move h.search hu).potential_moves hf hm.moves
    omega

end Search.Regular

/-! ### The first potential -/

theorem Kripke.length_initial_le (g : Kripke) : g.initial.toList.length ≤ g.size := by
  have hnodup : (g.initial.toList.map (·.index)).Nodup := by
    rw [List.nodup_iff_pairwise_ne, List.pairwise_map]
    refine g.initial.ascending.imp fun {a b} hab heq => ?_
    obtain rfl : a = b := by cases a; cases b; cases heq; rfl
    have hself : compare a a = .eq := Std.ReflCmp.compare_self
    rw [hself] at hab
    cases hab
  have hsub : g.initial.toList.map (·.index) ⊆ List.range g.size := by
    intro n hn
    obtain ⟨i, hi, rfl⟩ := List.mem_map.mp hn
    exact List.mem_range.mpr (g.initial_inside i hi)
  have hle := (hnodup.subperm hsub).length_le
  rwa [List.length_map, List.length_range] at hle

/-- Revisits and sessions of earlier requirements are over when a requirement starts. -/
theorem Course.recordsPrice_seed (h : Course g order fs past s) (hs : s.Idle) (f : Formula) :
    (s.seed g f).recordsPrice g f s.revisits.length ≤
      (spots g f).card * ((spots g f).card * weight g f f.height + 2) +
        (spots g f).card * weight g f f.height := by
  have hrevisits : (s.seed g f).revisitsPrice g f s.revisits.length = 0 := by
    refine Finset.sum_eq_zero fun n hn => ?_
    have hn : ¬ s.revisits.length < n := Nat.not_lt.mpr (Nat.le_of_lt_succ (Finset.mem_range.mp hn))
    unfold Search.revisitPrice
    split
    · rfl
    · exact if_neg fun h => hn h.1
  have hsessions : (s.seed g f).sessionsPrice g f = 0 := by
    refine Finset.sum_eq_zero fun n _ => if_neg fun hopen => ?_
    obtain ⟨u, hu, hpend⟩ := Option.map_eq_some_iff.mp hopen
    exact h.inScope.settled_of_idle h.valid_accounts.1 h.valid_accounts.2 hs hu hpend
  have hkeys : (s.seed g f).keysPrice g f ≤
      (spots g f).card * ((spots g f).card * weight g f f.height + 2) :=
    Nat.mul_le_mul_right _ (Nat.le_trans (Finset.card_filter_le _ _) Finset.card_image_le)
  have hroot : (s.seed g f).rootPrice g f ≤ (spots g f).card * weight g f f.height :=
    Nat.mul_le_mul_right _ (Search.unseen_le _ _ _)
  rw [Search.recordsPrice, hrevisits, hsessions]
  omega

/-- What a requirement may take when it starts: all visits of its own, and of all sessions. -/
theorem Course.potential_seed (h : Course g order fs past s) (hs : s.Idle) (f : Formula) :
    (s.seed g f).potential g f s.revisits.length ≤ g.size +
      ((spots g f).card * ((spots g f).card * weight g f f.height + 2) +
        (spots g f).card * weight g f f.height) := by
  have hqueue : (s.seed g f).queue.length ≤ g.size := by
    rw [Search.seed, hs.2.2, List.nil_append, List.length_map]
    exact g.length_initial_le
  have hresolved : (s.seed g f).resolved.length = 0 := by rw [Search.seed, hs.2.1]; rfl
  have htasks : (s.seed g f).tasksPrice g f = 0 := by
    rw [Search.tasksPrice, Search.seed, hs.1]
    rfl
  have hwaiters : (s.seed g f).waitersPrice g f = 0 := by
    have hparked : (s.seed g f).parked = [] :=
      h.inScope.parked_of_idle h.valid_accounts.1 h.valid_accounts.2 hs
    rw [Search.waitersPrice, hparked]
    rfl
  have hrecords := h.recordsPrice_seed hs f
  rw [Search.potential, hresolved, htasks, hwaiters]
  omega

theorem weight_le_pow (g : Kripke) (f : Formula) (n : Nat) :
    weight g f n ≤ (g.edgeCount + 3) * ((spots g f).card + 1) ^ n := by
  induction n with
  | zero => simp [weight]
  | succ n ih =>
    have hone : 1 ≤ ((spots g f).card + 1) ^ n := Nat.one_le_pow _ _ (Nat.succ_pos _)
    calc weight g f (n + 1) = g.edgeCount + 3 + (spots g f).card * weight g f n := rfl
      _ ≤ (g.edgeCount + 3) * ((spots g f).card + 1) ^ n +
          (spots g f).card * ((g.edgeCount + 3) * ((spots g f).card + 1) ^ n) :=
        Nat.add_le_add (Nat.le_mul_of_pos_right _ hone) (Nat.mul_le_mul_left _ ih)
      _ = (g.edgeCount + 3) * ((spots g f).card + 1) ^ (n + 1) := by ring

/-- With `k` keys, and visits that weigh `w`. -/
theorem potential_lt_pow {keys k w e n m : Nat} (hk : k ≤ keys) (hw : w ≤ (e + 3) * (k + 1) ^ n) :
    m + (k * (k * w + 2) + k * w) < Nat.pow (2 * keys + 2) (n + 4) * (e + m + 5) := by
  have hone : 1 ≤ (k + 1) ^ (n + 2) := Nat.one_le_pow _ _ (Nat.succ_pos _)
  have hk₁ : k ≤ (k + 1) ^ (n + 2) :=
    Nat.le_trans (Nat.le_succ k) (Nat.le_self_pow (by omega) (k + 1))
  have hvisits : k * (k + 1) * w ≤ (e + 3) * (k + 1) ^ (n + 2) :=
    calc k * (k + 1) * w ≤ (k + 1) * (k + 1) * ((e + 3) * (k + 1) ^ n) :=
          Nat.mul_le_mul (Nat.mul_le_mul_right _ (Nat.le_succ k)) hw
      _ = (e + 3) * (k + 1) ^ (n + 2) := by ring
  have hpow : (k + 1) ^ (n + 2) < (2 * keys + 2) ^ (n + 4) :=
    calc (k + 1) ^ (n + 2) ≤ (2 * keys + 2) ^ (n + 2) := Nat.pow_le_pow_left (by omega) _
      _ < (2 * keys + 2) ^ (n + 4) := Nat.pow_lt_pow_right (by omega) (by omega)
  calc m + (k * (k * w + 2) + k * w) = m + 2 * k + k * (k + 1) * w := by ring
    _ ≤ m * (k + 1) ^ (n + 2) + 2 * (k + 1) ^ (n + 2) + (e + 3) * (k + 1) ^ (n + 2) :=
      Nat.add_le_add (Nat.add_le_add (Nat.le_mul_of_pos_right _ hone) (Nat.mul_le_mul_left _ hk₁))
        hvisits
    _ = (k + 1) ^ (n + 2) * (e + m + 5) := by ring
    _ < (2 * keys + 2) ^ (n + 4) * (e + m + 5) :=
      Nat.mul_lt_mul_of_pos_right hpow (by omega)

/-- The potential is always less than the turns that a requirement is given. -/
theorem Course.potential_lt_turnBound (h : Course g order fs past s) (hfs : fs ≠ []) :
    s.potential g (current fs) past.revisits.length < g.turnBound (current fs) := by
  induction h with
  | start => exact absurd rfl hfs
  | seed before hs f =>
    exact Nat.lt_of_le_of_lt (before.potential_seed hs f.universal)
      (potential_lt_pow (card_spots_le g _) (weight_le_pow g _ _))
  | move before hm ih =>
    exact Nat.lt_of_le_of_lt
      (before.regular.potential_moves (isUniversal_universal _) (.single hm)) (ih hfs)

/-! ### Checks -/

namespace Checker

variable {c : Checker} {spec : Specification}

/-- A requirement takes less turns than it is given. -/
theorem Iteration.lt_turnBound (hl : c.settings.popLimit = none) {index k : Nat} {f : Formula}
    (hf : spec[index]? = some f) (h : c.Iteration spec index k r) :
    k < c.graph.turnBound f.universal := by
  obtain ⟨f', r₀, r₁, hf', hok, hseed, hturns⟩ := h
  obtain rfl := Option.some.inj (hf.symm.trans hf')
  obtain ⟨f', past, hf', hc⟩ := Iteration.onCourse hl ⟨f, r₀, r₁, hf, hok, hseed, .zero r₁⟩
  obtain rfl := Option.some.inj (hf.symm.trans hf')
  have hle := Search.Regular.potential_turns ⟨hc.sound, hc.course.regular⟩
    (isUniversal_universal _) hturns
  have hlt := hc.course.potential_lt_turnBound (by simp)
  exact Nat.lt_of_le_of_lt (Nat.le_trans (Nat.le_add_left _ _) hle) hlt

/-- Every check ends. Each requirement takes less turns than it is given, a number that depends on
the graph and the requirement alone; each turn takes at most one job. The chains of revisits that are
resumed within a turn end, too. So a check answers, unless a requirement is violated, by an atom that
has no value or by windows that have no common part, and not for want of turns or for an endless
chain. -/
theorem turns_lt_turnBound (c : Checker) (spec : Specification) (hl : c.settings.popLimit = none)
    (hv : spec.validate = .ok ()) :
    (∀ index f k r, spec[index]? = some f → c.Iteration spec index k r →
      k < c.graph.turnBound f.universal) ∧
    ((c.check spec).1.result = .ok () ∨ ∃ index f, spec[index]? = some f ∧
      ((∃ x, (c.check spec).1.result = .error (.error (.unsatisfied index f x))) ∨
      (∃ a, (c.check spec).1.result = .error (.error (.malformed (.atom a)))) ∨
      ∃ w, (c.check spec).1.result = .error (.error (.conflict w)))) := by
  refine ⟨fun index f k r hf h => h.lt_turnBound hl hf, ?_⟩
  cases hresult : (c.check spec).1.result with
  | ok => exact .inl rfl
  | error e =>
    obtain ⟨k, f, hf, ⟨-, r, hr⟩ | ⟨past, u, -, ⟨x, rfl, -⟩ | hhalts⟩⟩ :=
      exists_of_check_error hl hv hresult
    · exact absurd (hr.lt_turnBound hl hf) (Nat.lt_irrefl _)
    · exact .inr ⟨k, f, hf, .inl ⟨x, rfl⟩⟩
    · refine .inr ⟨k, f, hf, .inr ?_⟩
      cases hhalts with
      | conflict => exact .inr ⟨_, rfl⟩
      | unfold | judge => exact .inl ⟨_, rfl⟩

theorem turns_lt_turnBound_loop :
    ((small .loop .breadthFirst).check [.not (.eventually .all .falsum)]).1.result ≠
      .error (.fault .outOfTurns) := by
  have h := turns_lt_turnBound (small .loop .breadthFirst) [.not (.eventually .all .falsum)] rfl
    (by decide)
  rcases h.2 with h | ⟨index, f, -, ⟨x, h⟩ | ⟨a, h⟩ | ⟨w, h⟩⟩ <;> rw [h] <;> simp

end Checker

end CostCTL
