import CostCTL.Kripke.Dot
import CostCTL.Proofs.Iteration

/-!
# Reading DOT

A DOT text consists of plain characters and of strings between double quotes. A quote that stands
right after a backslash does not end its string. Read by this rule, the text of a graph has the
strings that were meant as labels, and only these, exactly if its nodes are quotable: variables are
escaped in labels, but control states stand there as they are (`Kripke.lex_dot_iff`).
-/

namespace CostCTL

namespace Dot

inductive Token where
  | plain (c : Char)
  | quoted (s : List Char)
  deriving DecidableEq

def Token.spell : Token → List Char
  | plain c => [c]
  | quoted s => '"' :: (s ++ ['"'])

def spell (ts : List Token) : List Char := ts.flatMap Token.spell

/-- Read a text, outside of strings or inside of one, of which `s` was read so far. There is no
reading if a string does not end. -/
def scan : Option (List Char) → List Char → Option (List Token)
  | none, [] => some []
  | some _, [] => none
  | none, c :: cs => if c = '"' then scan (some []) cs else (scan none cs).map (.plain c :: ·)
  | some s, c :: cs =>
    if c = '"' ∧ s.getLastD '"' ≠ '\\' then (scan none cs).map (.quoted s :: ·)
    else scan (some (s ++ [c])) cs

def lex (text : List Char) : Option (List Token) := scan none text

/-- Every quote stands right after a backslash; `last` is the character before. -/
def guarded (last : Char) : List Char → Bool
  | [] => true
  | c :: cs => (c != '"' || last == '\\') && guarded c cs

/-- A quote after the text is the first that ends it. -/
def closes (s : List Char) : Bool := guarded '"' s && s.getLastD '"' != '\\'

/-! ### Texts and their reading -/

section

variable {s t cs : List Char} {ts : List Token} {c d : Char}

theorem getLastD_append (s t : List Char) (d : Char) :
    (s ++ t).getLastD d = t.getLastD (s.getLastD d) := by
  induction s generalizing d with
  | nil => rfl
  | cons c s ih => rw [List.cons_append, List.getLastD_cons, ih, List.getLastD_cons]

theorem guarded_append (d : Char) (s t : List Char) :
    guarded d (s ++ t) = (guarded d s && guarded (s.getLastD d) t) := by
  induction s generalizing d with
  | nil => rfl
  | cons c s ih => simp only [List.cons_append, guarded, ih, List.getLastD_cons, Bool.and_assoc]

theorem guarded_of_not_mem (h : '"' ∉ s) (d : Char) : guarded d s = true := by
  induction s generalizing d with
  | nil => rfl
  | cons c s ih =>
    rw [List.mem_cons, not_or] at h
    rw [guarded, ih h.2, Bool.and_true, bne_iff_ne.mpr (Ne.symm h.1), Bool.true_or]

/-- A string that is open when the reading goes on has at least what was read so far. -/
theorem exists_of_scan_some (h : scan (some s) cs = some ts) :
    ∃ t ts', ts = .quoted (s ++ t) :: ts' := by
  induction cs generalizing s with
  | nil => cases h
  | cons c cs ih =>
    rw [scan] at h
    split at h
    · obtain ⟨ts', -, rfl⟩ := Option.map_eq_some_iff.mp h
      exact ⟨[], ts', by rw [List.append_nil]⟩
    · obtain ⟨t, ts', rfl⟩ := ih h
      exact ⟨c :: t, ts', by rw [List.append_assoc, List.singleton_append]⟩

theorem scan_of_guarded (hg : guarded (s.getLastD '"') t = true)
    (hl : (s ++ t).getLastD '"' ≠ '\\') :
    scan (some s) (t ++ '"' :: cs) = (scan none cs).map (.quoted (s ++ t) :: ·) := by
  induction t generalizing s with
  | nil =>
    rw [List.append_nil] at hl
    rw [List.nil_append, scan, if_pos ⟨rfl, hl⟩, List.append_nil]
  | cons c t ih =>
    have hc : ¬ (c = '"' ∧ s.getLastD '"' ≠ '\\') := by
      rintro ⟨rfl, hne⟩
      rw [guarded, beq_eq_false_iff_ne.mpr hne] at hg
      cases hg
    have hg' : guarded ((s ++ [c]).getLastD '"') t = true := by
      rw [getLastD_append]
      exact (Bool.and_eq_true_iff.mp hg).2
    rw [List.cons_append, scan, if_neg hc, ih hg' (by simpa using hl), List.append_assoc,
      List.singleton_append]

/-- If the string ends with the quote after `t`, no quote in `t` could end it. -/
theorem guarded_of_scan (h : scan (some s) (t ++ '"' :: cs) = some (.quoted (s ++ t) :: ts)) :
    guarded (s.getLastD '"') t = true ∧ (s ++ t).getLastD '"' ≠ '\\' := by
  induction t generalizing s with
  | nil =>
    refine ⟨rfl, fun hl => ?_⟩
    rw [List.append_nil] at hl
    rw [List.nil_append, scan, if_neg fun hc => hc.2 hl, List.append_nil] at h
    obtain ⟨t', ts', hts⟩ := exists_of_scan_some h
    have hlen := congrArg List.length (Token.quoted.inj (List.cons.inj hts).1)
    simp at hlen
  | cons c t ih =>
    rw [List.cons_append, scan] at h
    split at h
    · obtain ⟨ts', -, hts⟩ := Option.map_eq_some_iff.mp h
      have hlen := congrArg List.length (Token.quoted.inj (List.cons.inj hts).1)
      simp at hlen
    · next hc =>
      have ih := ih (s := s ++ [c]) (by simpa using h)
      rw [getLastD_append, List.append_assoc, List.singleton_append] at ih
      refine ⟨?_, ih.2⟩
      rw [guarded, Bool.and_eq_true_iff]
      refine ⟨?_, ih.1⟩
      rw [not_and, ne_eq, Decidable.not_not] at hc
      by_cases hq : c = '"'
      · rw [hc hq, beq_self_eq_true, Bool.or_true]
      · rw [bne_iff_ne.mpr hq, Bool.true_or]

theorem scan_quoted_iff : scan none (Token.spell (.quoted s) ++ cs) = some (.quoted s :: ts) ↔
    closes s = true ∧ scan none cs = some ts := by
  have hopen : scan none (Token.spell (.quoted s) ++ cs) = scan (some []) (s ++ '"' :: cs) := by
    rw [Token.spell, List.cons_append, scan, if_pos rfl, List.append_assoc, List.singleton_append]
  rw [hopen, closes, Bool.and_eq_true_iff, bne_iff_ne]
  constructor
  · intro h
    obtain ⟨hg, hl⟩ := guarded_of_scan (s := []) h
    rw [scan_of_guarded (s := []) hg hl] at h
    obtain ⟨ts', hts, he⟩ := Option.map_eq_some_iff.mp h
    exact ⟨⟨hg, hl⟩, hts.trans (congrArg some (List.cons.inj he).2)⟩
  · rintro ⟨⟨hg, hl⟩, hcs⟩
    rw [scan_of_guarded (s := []) hg hl, hcs]
    rfl

/-- A text is read as it was meant, exactly if its strings close where they should. -/
theorem lex_spell_iff (hp : ∀ c, .plain c ∈ ts → c ≠ '"') :
    lex (spell ts) = some ts ↔ ∀ s, .quoted s ∈ ts → closes s = true := by
  rw [lex]
  induction ts with
  | nil => simp [spell, scan]
  | cons t ts ih =>
    have ih := ih fun c hc => hp c (List.mem_cons_of_mem _ hc)
    rw [show spell (t :: ts) = t.spell ++ spell ts from List.flatMap_cons]
    cases t with
    | plain c =>
      have hc : c ≠ '"' := hp c List.mem_cons_self
      rw [Token.spell, List.singleton_append, scan, if_neg hc]
      simpa using ih
    | quoted s =>
      rw [scan_quoted_iff]
      simpa using and_congr_right fun _ => ih

end

/-! ### The tokens of a graph -/

def plains (s : String) : List Token := s.toList.map .plain

/-- A node has one string, its label. -/
def nodeTokens (initial onBranch : Bool) (i : NodeId) (n : Node) : List Token :=
  plains (i.text ++ " [shape=" ++ (match n.kind with | .read => "ellipse" | .write => "box")
    ++ ", label=")
  ++ .quoted (nodeLabel {} i n).toList
  :: plains ((if initial then ", style=bold" else "") ++ (if onBranch then ", color=red" else "")
    ++ "];\n")

/-- An edge has one string, its cost, unless it costs nothing. -/
def edgeTokens (onBranch : Bool) (source : NodeId) (e : Edge) : List Token :=
  plains (source.text ++ " -> " ++ e.target.text) ++
    match e.cost.isZero, onBranch with
    | true, false => plains ";\n"
    | true, true => plains " [color=red, penwidth=2];\n"
    | false, false => plains " [label=" ++ .quoted e.cost.text.toList :: plains "];\n"
    | false, true =>
      plains " [label=" ++ .quoted e.cost.text.toList :: plains ", color=red, penwidth=2];\n"

theorem spell_append (ts us : List Token) : spell (ts ++ us) = spell ts ++ spell us :=
  List.flatMap_append

theorem spell_quoted (s : List Char) (ts : List Token) :
    spell (.quoted s :: ts) = '"' :: (s ++ '"' :: spell ts) := by
  simp [spell, Token.spell]

theorem spell_plains (s : String) : spell (plains s) = s.toList := by
  simp [spell, plains, List.flatMap_map, Token.spell]

theorem toList_nodeLine (initial onBranch : Bool) (i : NodeId) (n : Node) :
    (nodeLine {} initial onBranch i n).toList = spell (nodeTokens initial onBranch i n) := by
  rw [nodeTokens, spell_append, spell_quoted, spell_plains, spell_plains]
  cases hk : n.kind <;> simp [nodeLine, hk]

theorem toList_edgeLine (onBranch : Bool) (source : NodeId) (e : Edge) :
    (edgeLine {} onBranch source e).toList = spell (edgeTokens onBranch source e) := by
  cases hz : e.cost.isZero <;> cases onBranch <;>
    simp [edgeTokens, edgeLine, hz, spell_append, spell_quoted, spell_plains]

end Dot

/-- The edges with the nodes that they leave, in the order they are stored. -/
def Kripke.arcs (g : Kripke) : List (NodeId × Edge) :=
  g.edges.toList.zipIdx.flatMap fun p => p.1.map fun e => (⟨p.2⟩, e)

open Dot in
/-- One statement for each node, in the order of their numbers, then one for each edge. -/
def Kripke.dotTokens (g : Kripke) (branch : List NodeId) : List Token :=
  plains "digraph \x7b\n"
  ++ g.nodes.toList.zipIdx.flatMap (fun p =>
    nodeTokens (decide (⟨p.2⟩ ∈ g.initial)) (decide (⟨p.2⟩ ∈ branch)) ⟨p.2⟩ p.1)
  ++ g.arcs.flatMap (fun a => edgeTokens (decide (⟨a.1, a.2.target⟩ ∈ steps branch)) a.1 a.2)
  ++ plains "\x7d\n"

theorem Table.contains_ofList {α : Type} [DecidableEq α] [Hashable α] (l : List α) (a : α) :
    (Table.ofList l).contains a = decide (a ∈ l) := by
  rw [Bool.eq_iff_iff, contains_iff, toList_ofList, List.mem_eraseDups, decide_eq_true_iff]

open Dot in
theorem Kripke.toList_dot (g : Kripke) (branch : List NodeId) :
    (g.dot branch {}).toList = spell (g.dotTokens branch) := by
  have hinitial (i : NodeId) : decide (i ∈ g.initial.toList) = decide (i ∈ g.initial) := rfl
  have hnodes : (g.nodes.toList.zipIdx.map fun p => nodeLine {}
      ((Table.ofList g.initial.toList).contains ⟨p.2⟩) ((Table.ofList branch).contains ⟨p.2⟩) ⟨p.2⟩
      p.1).flatMap String.toList = spell (g.nodes.toList.zipIdx.flatMap fun p =>
        nodeTokens (decide (⟨p.2⟩ ∈ g.initial)) (decide (⟨p.2⟩ ∈ branch)) ⟨p.2⟩ p.1) := by
    simp only [List.flatMap_map, Table.contains_ofList, hinitial, toList_nodeLine, spell,
      List.flatMap_assoc]
  have hedges : (g.edges.toList.zipIdx.flatMap fun p => p.1.map fun e => edgeLine {}
      ((Table.ofList (steps branch)).contains ⟨⟨p.2⟩, e.target⟩) ⟨p.2⟩ e).flatMap String.toList =
      spell (g.arcs.flatMap fun a =>
        edgeTokens (decide (⟨a.1, a.2.target⟩ ∈ steps branch)) a.1 a.2) := by
    simp only [arcs, List.flatMap_map, Table.contains_ofList, toList_edgeLine, spell,
      List.flatMap_assoc]
  rw [dotTokens, spell_append, spell_append, spell_append, spell_plains, spell_plains, ← hnodes,
    ← hedges]
  simp [dot, dotLines]

/-! ### Labels -/

namespace Dot

/-- Neither a quote nor a backslash. -/
def isPlain (c : Char) : Bool := c != '"' && c != '\\'

theorem isPlain_of_isDigit {c : Char} (h : c.isDigit = true) : isPlain c = true := by
  rw [isPlain, Bool.and_eq_true_iff, bne_iff_ne, bne_iff_ne]
  constructor
  all_goals
    rintro rfl
    revert h
    decide

theorem isPlain_natText (n : Nat) : (toString n).toList.all isPlain = true := by
  rw [List.all_eq_true]
  intro c hc
  rw [show (toString n).toList = Nat.toDigits 10 n from Nat.toList_repr] at hc
  exact isPlain_of_isDigit (Nat.isDigit_of_mem_toDigits (by decide) (by decide) hc)

theorem isPlain_intText (n : Int) : (toString n).toList.all isPlain = true := by
  rw [Int.toString_eq_repr, Int.repr_eq_if]
  split
  · exact isPlain_natText n.toNat
  · rw [String.toList_append, List.all_append, Bool.and_eq_true_iff]
    exact ⟨by decide, isPlain_natText (-n).toNat⟩

theorem isPlain_nodeText (i : NodeId) : i.text.toList.all isPlain = true := by
  rw [NodeId.text, String.toList_append, List.all_append, Bool.and_eq_true_iff]
  exact ⟨by decide, isPlain_natText i.index⟩

theorem isPlain_costText (c : Cost) : c.text.toList.all isPlain = true := by
  have hamount (a : Amount) : (toString a).toList.all isPlain = true := isPlain_natText a.toNat
  simp only [Cost.text, String.toList_append, List.all_append, hamount]
  decide

section

variable {s t : List Char}

theorem guarded_of_isPlain (h : s.all isPlain = true) (d : Char) : guarded d s = true := by
  refine guarded_of_not_mem (fun hq => ?_) d
  cases List.all_eq_true.mp h _ hq

/-- A text that ends so does not end in a backslash, unless it is empty and stands after one. -/
def EndsPlain (s : List Char) : Prop := ∀ d, d ≠ '\\' → s.getLastD d ≠ '\\'

theorem endsPlain_of_isPlain (h : s.all isPlain = true) : EndsPlain s := by
  induction s with
  | nil => exact fun d hd => hd
  | cons c s ih =>
    rw [List.all_cons, Bool.and_eq_true_iff] at h
    intro d _
    rw [List.getLastD_cons]
    refine ih h.2 c ?_
    rintro rfl
    cases h.1

theorem EndsPlain.append (hs : EndsPlain s) (ht : EndsPlain t) : EndsPlain (s ++ t) := by
  intro d hd
  rw [getLastD_append]
  exact ht _ (hs d hd)

theorem EndsPlain.of_concat (s : List Char) {c : Char} (hc : c ≠ '\\') : EndsPlain (s ++ [c]) := by
  intro d _
  rw [getLastD_append]
  exact hc

theorem endsPlain_intercalate {l : List (List Char)} (hs : EndsPlain s)
    (hl : ∀ x ∈ l, EndsPlain x) : EndsPlain (s.intercalate l) := by
  induction l with
  | nil => exact fun d hd => hd
  | cons x l ih =>
    have hx := hl x List.mem_cons_self
    cases l with
    | nil => simpa using hx
    | cons y l =>
      rw [List.intercalate_cons_cons]
      exact (hx.append hs).append (ih fun z hz => hl z (List.mem_cons_of_mem _ hz))

theorem endsPlain_valueText (v : Value) : EndsPlain v.text.toList := by
  cases v with
  | bool b => cases b <;> exact endsPlain_of_isPlain (by decide)
  | int n => exact endsPlain_of_isPlain (isPlain_intText n)
  | str s =>
    rw [Value.text, Text.quoted, String.toList_ofList, ← List.cons_append]
    exact .of_concat _ (by decide)

theorem endsPlain_varsText (n : Snapshot) : EndsPlain n.varsText.toList := by
  rw [Snapshot.varsText, String.toList_intercalate]
  refine endsPlain_intercalate (endsPlain_of_isPlain (by decide)) fun x hx => ?_
  simp only [List.mem_map] at hx
  obtain ⟨text, ⟨p, -, rfl⟩, rfl⟩ := hx
  rw [String.toList_append, String.toList_append]
  intro d _
  rw [getLastD_append, getLastD_append]
  exact endsPlain_valueText p.2 '=' (by decide)

theorem toList_escape (s : String) : (escape s).toList =
    s.toList.flatMap fun c => if c = '\\' ∨ c = '"' then ['\\', c] else [c] :=
  String.toList_ofList

/-- Escaping puts a backslash before every quote. -/
theorem guarded_escape (s : String) (d : Char) : guarded d (escape s).toList = true := by
  rw [toList_escape]
  induction s.toList generalizing d with
  | nil => rfl
  | cons c l ih =>
    rw [List.flatMap_cons, guarded_append, ih, Bool.and_true]
    split
    · simp [guarded]
    · next hc => simp [guarded, (not_or.mp hc).2]

theorem getLastD_escape (s : String) (d : Char) :
    (escape s).toList.getLastD d = s.toList.getLastD d := by
  rw [toList_escape]
  induction s.toList generalizing d with
  | nil => rfl
  | cons c l ih =>
    rw [List.flatMap_cons, getLastD_append, ih, List.getLastD_cons]
    split <;> rfl

end

/-- The control states may stand in a label as they are: every quote in them follows a backslash,
and no backslash comes to stand before the quote after the label. -/
def isQuotable (n : Node) : Bool :=
  guarded ' ' n.current.toList && guarded ' ' n.target.toList
    && (n.entry || !n.vars.isEmpty || n.target.toList.getLastD ' ' != '\\')

/-- What stands in a label after the control states. -/
def labelRest (n : Node) : List Char :=
  (if n.entry then " (entry)" else "").toList
    ++ (if !n.vars.isEmpty then "\\n" ++ escape n.varsText else "").toList

theorem toList_nodeLabel (i : NodeId) (n : Node) : (nodeLabel {} i n).toList =
    (i.text.toList ++ ": ".toList) ++ n.current.toList ++ " -> ".toList ++ n.target.toList
      ++ labelRest n := by
  simp [nodeLabel, labelRest]

theorem guarded_labelRest (n : Node) (d : Char) : guarded d (labelRest n) = true := by
  rw [labelRest, guarded_append, Bool.and_eq_true_iff]
  constructor
  · split <;> exact guarded_of_isPlain (by decide) d
  · cases n.vars.isEmpty with
    | false =>
      rw [Bool.not_false, if_pos rfl, String.toList_append, guarded_append, guarded_escape,
        Bool.and_true]
      exact guarded_of_not_mem (by decide) _
    | true => rfl

theorem getLastD_labelRest (n : Node) (d : Char) : (labelRest n).getLastD d ≠ '\\' ↔
    (n.entry || !n.vars.isEmpty || d != '\\') = true := by
  rw [labelRest, getLastD_append]
  cases n.vars.isEmpty with
  | false =>
    have hend := endsPlain_varsText n.toSnapshot 'n' (by decide)
    simp only [Bool.not_false, if_true, String.toList_append, getLastD_append, getLastD_escape]
    simpa using hend
  | true => cases n.entry <;> simp

theorem closes_nodeLabel (i : NodeId) (n : Node) :
    closes (nodeLabel {} i n).toList = isQuotable n := by
  have hindex : guarded '"' i.text.toList = true := guarded_of_isPlain (isPlain_nodeText i) _
  have hcolon (d : Char) : guarded d ": ".toList = true := guarded_of_not_mem (by decide) d
  have harrow (d : Char) : guarded d " -> ".toList = true := guarded_of_not_mem (by decide) d
  -- both control states stand after a blank
  have hblank (d : Char) : ": ".toList.getLastD d = ' ' := rfl
  have hblank' (d : Char) : " -> ".toList.getLastD d = ' ' := rfl
  have hrest := getLastD_labelRest n (n.target.toList.getLastD ' ')
  rw [← bne_iff_ne, ← Bool.eq_iff_iff] at hrest
  rw [closes, toList_nodeLabel, isQuotable]
  simp only [guarded_append, getLastD_append, hindex, hcolon, harrow, hblank, hblank',
    guarded_labelRest, hrest, Bool.true_and, Bool.and_true]

/-! ### Quotes outside of strings -/

section

variable {c : Char} {s : String}

theorem ne_of_mem_plains (h : '"' ∉ s.toList) (hc : .plain c ∈ plains s) : c ≠ '"' := by
  rintro rfl
  obtain ⟨c, hc, he⟩ := List.mem_map.mp hc
  cases he
  exact h hc

theorem not_mem_of_isPlain (h : s.toList.all isPlain = true) : '"' ∉ s.toList := by
  intro hq
  cases List.all_eq_true.mp h _ hq

theorem quoted_not_mem_plains (t : List Char) : .quoted t ∉ plains s := by
  intro h
  obtain ⟨c, -, he⟩ := List.mem_map.mp h
  cases he

end

theorem ne_of_mem_nodeTokens {initial onBranch : Bool} {i : NodeId} {n : Node} {c : Char}
    (hc : .plain c ∈ nodeTokens initial onBranch i n) : c ≠ '"' := by
  have hi := not_mem_of_isPlain (isPlain_nodeText i)
  rw [nodeTokens, List.mem_append, List.mem_cons] at hc
  rcases hc with hc | hc | hc
  · refine ne_of_mem_plains ?_ hc
    cases n.kind <;> simp [hi]
  · cases hc
  · refine ne_of_mem_plains ?_ hc
    cases initial <;> cases onBranch <;> decide

theorem ne_of_mem_edgeTokens {onBranch : Bool} {source : NodeId} {e : Edge} {c : Char}
    (hc : .plain c ∈ edgeTokens onBranch source e) : c ≠ '"' := by
  have hs := not_mem_of_isPlain (isPlain_nodeText source)
  have ht := not_mem_of_isPlain (isPlain_nodeText e.target)
  unfold edgeTokens at hc
  rw [List.mem_append] at hc
  rcases hc with hc | hc
  · exact ne_of_mem_plains (by simp [hs, ht]) hc
  · cases he : e.cost.isZero <;> cases onBranch <;>
      simp only [he, List.mem_append, List.mem_cons, reduceCtorEq, false_or] at hc
    · exact hc.elim (ne_of_mem_plains (by decide)) (ne_of_mem_plains (by decide))
    · exact hc.elim (ne_of_mem_plains (by decide)) (ne_of_mem_plains (by decide))
    · exact ne_of_mem_plains (by decide) hc
    · exact ne_of_mem_plains (by decide) hc

theorem quoted_mem_nodeTokens {initial onBranch : Bool} {i : NodeId} {n : Node} {s : List Char} :
    .quoted s ∈ nodeTokens initial onBranch i n ↔ s = (nodeLabel {} i n).toList := by
  simp [nodeTokens, quoted_not_mem_plains]

/-- The strings of edges are costs, and these have nothing to escape. -/
theorem closes_of_mem_edgeTokens {onBranch : Bool} {source : NodeId} {e : Edge} {s : List Char}
    (hs : .quoted s ∈ edgeTokens onBranch source e) : closes s = true := by
  have hcost := isPlain_costText e.cost
  have hcloses : closes e.cost.text.toList = true := by
    rw [closes, guarded_of_isPlain hcost, Bool.true_and, bne_iff_ne]
    exact endsPlain_of_isPlain hcost _ (by decide)
  cases he : e.cost.isZero <;> cases onBranch <;>
    simp only [edgeTokens, he, List.mem_append, List.mem_cons, quoted_not_mem_plains, false_or,
      or_false, Token.quoted.injEq] at hs
  all_goals exact hs ▸ hcloses

end Dot

open Dot in
theorem Kripke.lex_spell_dotTokens (g : Kripke) (branch : List NodeId) :
    lex (spell (g.dotTokens branch)) = some (g.dotTokens branch) ↔
      ∀ n ∈ g.nodes, isQuotable n = true := by
  have hplain (c : Char) (hc : .plain c ∈ g.dotTokens branch) : c ≠ '"' := by
    simp only [dotTokens, List.mem_append, List.mem_flatMap] at hc
    rcases hc with ((hc | ⟨p, -, hc⟩) | ⟨a, -, hc⟩) | hc
    · exact ne_of_mem_plains (by decide) hc
    · exact ne_of_mem_nodeTokens hc
    · exact ne_of_mem_edgeTokens hc
    · exact ne_of_mem_plains (by decide) hc
  rw [lex_spell_iff hplain]
  constructor
  · intro h n hn
    obtain ⟨i, hi, hget⟩ := Array.mem_iff_getElem.mp hn
    rw [← closes_nodeLabel ⟨i⟩ n]
    refine h _ ?_
    have hp : (n, i) ∈ g.nodes.toList.zipIdx := by
      rw [List.mem_zipIdx_iff_getElem?, Array.getElem?_toList, ← hget, Array.getElem?_eq_getElem hi]
    simp only [dotTokens, List.mem_append, List.mem_flatMap]
    exact .inl (.inl (.inr ⟨(n, i), hp, quoted_mem_nodeTokens.mpr rfl⟩))
  · intro h s hs
    simp only [dotTokens, List.mem_append, List.mem_flatMap, quoted_not_mem_plains, false_or,
      or_false] at hs
    rcases hs with ⟨p, hp, hs⟩ | ⟨a, -, hs⟩
    · rw [quoted_mem_nodeTokens.mp hs, closes_nodeLabel]
      exact h p.1 (Array.mem_toList_iff.mp (List.fst_mem_of_mem_zipIdx hp))
    · exact closes_of_mem_edgeTokens hs

open Dot in
/-- The text of a graph is one statement for each node, with one string each, its label, and then
one for each edge. It is read as such exactly if all nodes are quotable. -/
theorem Kripke.lex_dot_iff (g : Kripke) (branch : List NodeId) :
    (g.dot branch {}).toList = spell (g.dotTokens branch) ∧
      (lex (g.dot branch {}).toList = some (g.dotTokens branch) ↔
        ∀ n ∈ g.nodes, isQuotable n = true) := by
  refine ⟨g.toList_dot branch, ?_⟩
  rw [toList_dot]
  exact g.lex_spell_dotTokens branch

/-- A machine that stays in one control state. -/
def Kripke.resting (state : String) : Kripke :=
  { loop with
    nodes := #[⟨⟨∅, false, state, state⟩, .read⟩]
    size_edges := rfl
    inside := loop.inside
    initial_inside := loop.initial_inside }

/-- The label of a control state that is named by a quote ends at that quote. -/
theorem Kripke.lex_dot_resting_ne :
    Dot.lex ((resting "\"").dot [] {}).toList ≠ some ((resting "\"").dotTokens []) := by
  rw [toList_dot, ne_eq, lex_spell_dotTokens]
  decide

end CostCTL
