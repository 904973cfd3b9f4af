import Reckon.Proofs.EvaluationOrder
import Reckon.Proofs.Parenthesization

/-!
# Chains of additions

Values joined by plus signs are added from left to right. Numbers are summed up to the
first string, which turns the sum into text; from there on texts are joined, whatever the
types. A value that is neither a number nor a string is accepted only next to a string,
so without one it stops the evaluation at the plus in front of it, or at the first plus
if it starts the chain.
-/
namespace Reckon
open Grammar

/-- A token that stands for a value. -/
structure Summand where
  token : Token
  value : Value
  stands : Atom token value

/-- A plus sign and the summand behind it. -/
structure Addend extends Summand where
  plus : Token
  kind_plus : plus.kind = .plus

/-- A summand and those that are added to it, in order. -/
structure PlusChain where
  first : Summand
  rest : List Addend

namespace PlusChain

def tokens (chain : PlusChain) : List Token :=
  chain.first.token :: chain.rest.flatMap fun a => [a.plus, a.token]

def values (chain : PlusChain) : List Value :=
  chain.first.value :: chain.rest.map (·.value)

/-- The tree in which addends extend a left side. -/
def treeFrom (left : Expr) (rest : List Addend) : Expr :=
  rest.foldl (fun left a => .binary left a.plus (.literal a.value)) left

def tree (chain : PlusChain) : Expr := treeFrom (.literal chain.first.value) chain.rest

/-- Adds addends to a value, one after the other. -/
def total (value : Value) (rest : List Addend) : Except Fault Value :=
  rest.foldlM (fun left a => Operator.addition a.plus left a.value) value

theorem derives_treeFrom {p : List Token} {left : Expr} (h : Derives (.binary .term) p left)
    (rest : List Addend) :
    Derives (.binary .term) (p ++ rest.flatMap fun a => [a.plus, a.token])
      (treeFrom left rest) := by
  induction rest generalizing p left with
  | nil => simpa [treeFrom] using h
  | cons a rest ih =>
    have hplus : a.plus.kind ∈ joiners .term := by
      rw [a.kind_plus]
      exact List.mem_cons_self
    have hsummand : Derives (operandOf .term) [a.token] (.literal a.value) :=
      Derives.of_primary (.atom a.stands) _
    have hjoined := ih (Derives.joined h hplus hsummand)
    rw [List.append_assoc] at hjoined
    exact hjoined

/-- A chain is parsed as its tree. -/
theorem expression_tokens (chain : PlusChain) {closing : Token} (h : closing.kind = .eof) :
    Parse.expression (chain.tokens ++ [closing]) = .ok chain.tree := by
  have hfirst : Derives (.binary .term) [chain.first.token] (.literal chain.first.value) :=
    Derives.of_primary (.atom chain.first.stands) _
  have hchain := (derives_treeFrom hfirst chain.rest).ternary_of_binary
  exact Parse.expression_eq_ok_iff.mpr
    ⟨closing, [], Parse.reads_of_derives hchain (.inl h) [], h⟩

theorem evaluate_binary_plus (left : Expr) (a : Addend) :
    (Expr.binary left a.plus (.literal a.value)).evaluate =
      left.evaluate >>= fun v => Operator.addition a.plus v a.value := by
  have hbinary : ∀ v, Operator.binary a.plus v a.value = Operator.addition a.plus v a.value := by
    intro v
    rw [Operator.binary, a.kind_plus]
  simp only [← hbinary]
  rfl

theorem evaluate_treeFrom (left : Expr) (rest : List Addend) :
    (treeFrom left rest).evaluate = left.evaluate >>= fun v => total v rest := by
  induction rest generalizing left with
  | nil => exact (bind_pure left.evaluate).symm
  | cons a rest ih =>
    calc (treeFrom left (a :: rest)).evaluate
        = (Expr.binary left a.plus (.literal a.value)).evaluate >>= fun v => total v rest := ih _
      _ = left.evaluate >>= fun v => total v (a :: rest) := by
          rw [evaluate_binary_plus, bind_assoc]
          rfl

theorem evaluate_tree (chain : PlusChain) :
    chain.tree.evaluate = total chain.first.value chain.rest := evaluate_treeFrom _ _

theorem total_cons {value sum : Value} {a : Addend}
    (h : Operator.addition a.plus value a.value = .ok sum) (rest : List Addend) :
    total value (a :: rest) = total sum rest := by
  rw [total, List.foldlM_cons, h]
  rfl

theorem addition_of_isString (plus : Token) {left right : Value}
    (h : left.isString ∨ right.isString) :
    Operator.addition plus left right = .ok (.string (left.text ++ right.text)) := by
  unfold Operator.addition
  split
  · rcases h with h | h <;> cases h
  · rw [if_pos (Bool.or_eq_true_iff.mpr h)]

/-- Behind a string all texts are joined. -/
theorem total_string (text : String) (rest : List Addend) :
    total (.string text) rest = .ok (.string (text ++ String.join (rest.map (·.value.text)))) := by
  induction rest generalizing text with
  | nil => simp [total, pure, Except.pure]
  | cons a rest ih =>
    have hstep : Operator.addition a.plus (.string text) a.value =
        .ok (.string (text ++ a.value.text)) := addition_of_isString _ (.inl rfl)
    rw [total_cons hstep, ih, List.map_cons, String.join_cons, String.append_assoc]

/-- A string turns what stands before it into text. -/
theorem total_cons_string (value : Value) {a : Addend} (h : a.value.isString)
    (rest : List Addend) :
    total value (a :: rest) =
      .ok (.string (value.text ++ String.join ((a :: rest).map (·.value.text)))) := by
  rw [total_cons (addition_of_isString _ (.inr h)), total_string, List.map_cons,
    String.join_cons, String.append_assoc]

/-- Numbers are summed. -/
theorem total_numbers (x : Float) {numbers : List Addend} {ys : List Float}
    (h : numbers.map (·.value) = ys.map .number) (rest : List Addend) :
    total (.number x) (numbers ++ rest) = total (.number (ys.foldl (· + ·) x)) rest := by
  induction numbers generalizing x ys with
  | nil =>
    obtain rfl : ys = [] := List.map_eq_nil_iff.mp h.symm
    rfl
  | cons a numbers ih =>
    cases ys with
    | nil => cases h
    | cons y ys =>
      obtain ⟨hvalue, hnumbers⟩ := List.cons.inj h
      have hstep : Operator.addition a.plus (.number x) a.value = .ok (.number (x + y)) := by
        rw [show a.value = .number y from hvalue]
        rfl
      rw [List.cons_append, total_cons hstep, ih _ hnumbers, List.foldl_cons]

theorem total_cons_refused {value : Value} {a : Addend}
    (h : value.asNumber? = none ∨ a.value.asNumber? = none) (hvalue : value.isString = false)
    (ha : a.value.isString = false) (rest : List Addend) :
    total value (a :: rest) =
      .error (.refused ⟨.numbersOrStrings, a.plus⟩ [value, a.value]) := by
  rw [total, List.foldlM_cons, Operator.addition_of_none _ h hvalue ha]
  rfl

end PlusChain

/-- `Amounts values value`: the values come to a single one without any string. One value is
what it is, and numbers come to their sum from left to right. -/
inductive Amounts : List Value → Value → Prop
  | single (value) : Amounts [value] value
  | sum (x xs) : Amounts ((x :: xs).map .number) (.number (xs.foldl (· + ·) x))

/-- The text in front of the first string. -/
inductive FrontText : List Value → String → Prop
  | none : FrontText [] ""
  | some {values value} : Amounts values value → FrontText values value.text

/-- Where the first string stands, counted from one. Without a string, behind the last value. -/
def firstString (values : List Value) : Nat := values.findIdx Value.isString + 1

/-- Where the first value stands that is no number, counted from one. -/
def firstOther (values : List Value) : Nat := values.findIdx (·.asNumber?.isNone) + 1

/-- Some value in front of the first string is no number, and the string does not stand next
to it at the start of the chain. -/
def Unsummable (values : List Value) : Prop :=
  3 ≤ firstString values ∧ ∃ v ∈ values.take (firstString values - 1), v.asNumber? = none

theorem findIdx_append_cons {α : Type} {p : α → Bool} {front : List α} {a : α}
    (hfront : ∀ b ∈ front, p b = false) (ha : p a) (back : List α) :
    (front ++ a :: back).findIdx p = front.length := by
  have hlength : front.findIdx p = front.length := List.findIdx_eq_length.mpr hfront
  rw [List.findIdx_append, hlength, if_neg (Nat.lt_irrefl _), List.findIdx_cons, ha]
  exact Nat.zero_add _

theorem length_le_findIdx {α : Type} {p : α → Bool} {front : List α}
    (h : ∀ b ∈ front, p b = false) (back : List α) :
    front.length ≤ (front ++ back).findIdx p := by
  have hlength : front.findIdx p = front.length := List.findIdx_eq_length.mpr h
  rw [List.findIdx_append, hlength, if_neg (Nat.lt_irrefl _)]
  exact Nat.le_add_left _ _

theorem isString_of_number {v : Value} (h : v.asNumber? ≠ none) : v.isString = false := by
  cases v with
  | number x => rfl
  | nil | boolean _ | string _ => exact absurd rfl h

theorem asNumber?_ne_none (xs : List Float) : ∀ v ∈ xs.map Value.number, v.asNumber? ≠ none := by
  intro v hv
  obtain ⟨x, -, rfl⟩ := List.mem_map.mp hv
  exact Option.some_ne_none x

theorem isString_of_mem_numbers (xs : List Float) :
    ∀ v ∈ xs.map Value.number, v.isString = false :=
  fun v hv => isString_of_number (asNumber?_ne_none xs v hv)

theorem Amounts.not_unsummable {front : List Value} {value : Value} (h : Amounts front value)
    (back : List Value) (hfront : firstString (front ++ back) = front.length + 1) :
    ¬ Unsummable (front ++ back) := by
  rintro ⟨hlate, v, hv, hnone⟩
  rw [hfront, Nat.add_sub_cancel, List.take_left] at hv
  cases h with
  | single _ =>
    rw [hfront, List.length_singleton] at hlate
    omega
  | sum x xs => exact asNumber?_ne_none (x :: xs) v hv hnone

theorem FrontText.not_unsummable {front back : List Value} {text : String}
    (h : FrontText front text) (hfront : firstString (front ++ back) = front.length + 1) :
    ¬ Unsummable (front ++ back) := by
  cases h with
  | none =>
    rintro ⟨hlate, -⟩
    rw [hfront, List.length_nil] at hlate
    omega
  | some hamounts => exact hamounts.not_unsummable _ hfront

namespace PlusChain

/-- The ways a chain can go: to the end without a string, through a first string, or up to a
value that cannot be added. -/
inductive Goes (chain : PlusChain) : Prop
  | sums {value} : Amounts chain.values value → (∀ v ∈ chain.values, v.isString = false) →
      total chain.first.value chain.rest = .ok value → Goes chain
  | joins {front string back text} : chain.values = front ++ string :: back →
      (∀ v ∈ front, v.isString = false) → string.isString → FrontText front text →
      total chain.first.value chain.rest =
        .ok (.string (text ++ String.join ((string :: back).map Value.text))) → Goes chain
  | stops {front other back a operands} : chain.values = front ++ other :: back →
      (∀ v ∈ front, v.asNumber? ≠ none) → other.asNumber? = none → other.isString = false →
      2 ≤ chain.values.findIdx Value.isString → chain.rest[front.length - 1]? = some a →
      total chain.first.value chain.rest =
        .error (.refused ⟨.numbersOrStrings, a.plus⟩ operands) → Goes chain

/-- The numbers at the front of some addends. -/
theorem exists_numbers (rest : List Addend) :
    ∃ (numbers others : List Addend) (ys : List Float), rest = numbers ++ others ∧
      numbers.map (·.value) = ys.map .number ∧ ∀ a ∈ others.head?, a.value.asNumber? = none := by
  induction rest with
  | nil => exact ⟨[], [], [], rfl, rfl, by simp⟩
  | cons a rest ih =>
    cases hvalue : a.value with
    | number y =>
      obtain ⟨numbers, others, ys, rfl, hnumbers, hothers⟩ := ih
      refine ⟨a :: numbers, others, y :: ys, rfl, ?_, hothers⟩
      rw [List.map_cons, List.map_cons, hvalue, hnumbers]
    | nil | boolean _ | string _ =>
      exact ⟨[], a :: rest, [], rfl, rfl, by simp [hvalue, Value.asNumber?]⟩

theorem goes_of_number {chain : PlusChain} {x : Float} (h : chain.first.value = .number x) :
    chain.Goes := by
  obtain ⟨numbers, others, ys, hrest, hnumbers, hothers⟩ := exists_numbers chain.rest
  have hvalues : chain.values = (x :: ys).map .number ++ others.map (·.value) := by
    rw [values, h, hrest, List.map_append, hnumbers]
    rfl
  have htotal : total chain.first.value chain.rest =
      total (.number (ys.foldl (· + ·) x)) others := by rw [h, hrest, total_numbers x hnumbers]
  cases others with
  | nil =>
    rw [List.map_nil, List.append_nil] at hvalues
    have hamounts := Amounts.sum x ys
    rw [← hvalues] at hamounts
    exact .sums hamounts (hvalues ▸ isString_of_mem_numbers (x :: ys)) htotal
  | cons a others =>
    have ha : a.value.asNumber? = none := hothers a rfl
    change chain.values = (x :: ys).map .number ++ a.value :: others.map (·.value) at hvalues
    by_cases hstring : a.value.isString
    · refine .joins hvalues (isString_of_mem_numbers _) hstring (.some (.sum x ys)) ?_
      rw [htotal, total_cons_string _ hstring, List.map_cons, List.map_cons, List.map_map]
      rfl
    · have hstring : a.value.isString = false := Bool.eq_false_iff.mpr hstring
      have hlength : numbers.length = ys.length := by
        simpa using congrArg List.length hnumbers
      refine .stops hvalues (asNumber?_ne_none _) ha hstring ?_ ?_
        (htotal.trans (total_cons_refused (.inr ha) rfl hstring others))
      · have hfront := List.forall_mem_append.mpr
          ⟨isString_of_mem_numbers (x :: ys), List.forall_mem_singleton.mpr hstring⟩
        have hle := length_le_findIdx hfront (others.map (·.value))
        rw [List.append_assoc, List.singleton_append, ← hvalues, List.length_append,
          List.length_map, List.length_cons] at hle
        simp only [List.length_singleton] at hle
        omega
      · rw [hrest, List.length_map, List.length_cons, Nat.add_sub_cancel, ← hlength]
        simp

/-- A value that is no number only joins with a string. -/
theorem goes_of_other {chain : PlusChain} (h : chain.first.value.asNumber? = none)
    (hstring : chain.first.value.isString = false) : chain.Goes := by
  obtain ⟨first, rest⟩ := chain
  cases rest with
  | nil =>
    exact .sums (.single _) (List.forall_mem_singleton.mpr hstring) rfl
  | cons a rest =>
    have hvalues : values ⟨first, a :: rest⟩ =
        [first.value] ++ a.value :: rest.map (·.value) := rfl
    by_cases ha : a.value.isString
    · refine .joins hvalues (List.forall_mem_singleton.mpr hstring) ha (.some (.single _)) ?_
      rw [total_cons_string _ ha, List.map_cons, List.map_cons, List.map_map]
      rfl
    · have ha : a.value.isString = false := Bool.eq_false_iff.mpr ha
      have hfront : ∀ v ∈ [first.value, a.value], v.isString = false :=
        List.forall_mem_cons.mpr ⟨hstring, List.forall_mem_singleton.mpr ha⟩
      exact .stops (List.nil_append _).symm (List.forall_mem_nil _) h hstring
        (length_le_findIdx hfront _) rfl (total_cons_refused (.inl h) hstring ha rest)

theorem goes (chain : PlusChain) : chain.Goes := by
  cases hfirst : chain.first.value with
  | nil => exact goes_of_other (by rw [hfirst]; rfl) (by rw [hfirst]; rfl)
  | boolean b => exact goes_of_other (by rw [hfirst]; rfl) (by rw [hfirst]; rfl)
  | number x => exact goes_of_number hfirst
  | string text =>
    have htotal := total_string text chain.rest
    have hvalues : chain.values = [] ++ .string text :: chain.rest.map (·.value) := by
      rw [values, hfirst]
      rfl
    refine .joins hvalues (List.forall_mem_nil _) rfl .none ?_
    rw [hfirst, htotal, List.map_cons, List.map_map, String.join_cons, String.empty_append]
    rfl

/-- Chains of `+` are parsed to the left, sum the leading numbers and then join texts. If a
value in front of the first string is no number, and that string is not the second value,
the chain stops at the plus in front of the first value that is no number, or at the first
plus if that value starts the chain. Otherwise a chain without a string comes to its only
value or to the sum of its numbers. A chain with a string comes to the text of what its
front comes to, followed by the texts from the first string on. -/
theorem chain_total (chain : PlusChain) {closing : Token} (hclosing : closing.kind = .eof) :
    ∃ e, Parse.expression (chain.tokens ++ [closing]) = .ok e ∧
      (Unsummable chain.values → ∃ a operands,
        chain.rest[firstOther chain.values - 2]? = some a ∧
        e.evaluate = .error (.refused ⟨.numbersOrStrings, a.plus⟩ operands)) ∧
      (¬ Unsummable chain.values → chain.values.length < firstString chain.values →
        ∃ value, Amounts chain.values value ∧ e.evaluate = .ok value) ∧
      (¬ Unsummable chain.values → firstString chain.values ≤ chain.values.length →
        ∃ text, FrontText (chain.values.take (firstString chain.values - 1)) text ∧
          e.evaluate = .ok (.string (text ++ String.join
            ((chain.values.drop (firstString chain.values - 1)).map Value.text)))) := by
  refine ⟨chain.tree, chain.expression_tokens hclosing, ?_⟩
  rw [evaluate_tree]
  cases chain.goes with
  | sums hamounts hstrings htotal =>
    have hlast : firstString chain.values = chain.values.length + 1 :=
      congrArg (· + 1) (List.findIdx_eq_length.mpr hstrings)
    have hsum : ¬ Unsummable chain.values := by
      have := hamounts.not_unsummable []
      rw [List.append_nil] at this
      exact this hlast
    refine ⟨fun h => absurd h hsum, fun _ _ => ⟨_, hamounts, htotal⟩, fun _ h => ?_⟩
    omega
  | @joins front string back text hvalues hfront hstring htext htotal =>
    have hfirst : firstString chain.values = front.length + 1 := by
      rw [firstString, hvalues, findIdx_append_cons hfront hstring]
    have hsum : ¬ Unsummable chain.values := by
      rw [hvalues] at hfirst ⊢
      exact htext.not_unsummable hfirst
    refine ⟨fun h => absurd h hsum, fun _ h => ?_, fun _ _ => ⟨text, ?_, ?_⟩⟩
    · rw [hfirst, hvalues, List.length_append, List.length_cons] at h
      omega
    · rw [hfirst, Nat.add_sub_cancel, hvalues, List.take_left]
      exact htext
    · rw [hfirst, Nat.add_sub_cancel, hvalues, List.drop_left]
      exact htotal
  | @stops front other back a operands hvalues hnumbers hother hstring hlate ha htotal =>
    have hstrings : ∀ v ∈ front ++ [other], v.isString = false :=
      List.forall_mem_append.mpr ⟨fun v hv => isString_of_number (hnumbers v hv),
        List.forall_mem_singleton.mpr hstring⟩
    have hvalues' : chain.values = (front ++ [other]) ++ back := by
      rw [hvalues, List.append_assoc, List.singleton_append]
    have hmem : other ∈ chain.values.take (firstString chain.values - 1) := by
      have hle := length_le_findIdx hstrings back
      rw [firstString, Nat.add_sub_cancel, hvalues', List.take_append, List.take_of_length_le hle]
      exact List.mem_append_left _ List.mem_concat_self
    have hsum : Unsummable chain.values := ⟨Nat.succ_le_succ hlate, other, hmem, hother⟩
    refine ⟨fun _ => ⟨a, operands, ?_, htotal⟩, fun h => absurd hsum h, fun h => absurd hsum h⟩
    have hindex : firstOther chain.values = front.length + 1 := by
      rw [firstOther, hvalues, findIdx_append_cons (fun v hv => ?_) (by rw [hother]; rfl)]
      exact Option.isNone_eq_false_iff.mpr (Option.isSome_iff_ne_none.mpr (hnumbers v hv))
    rw [hindex]
    exact ha

/-- Two numbers and `nil` in front of a string stop at the second plus. A truth value next to a
string joins with it, and two numbers without a string are summed. -/
theorem chain_total_three_ways :
    let summand (value : Value) : Summand := ⟨value.token, value, value.atom_token⟩
    let plus (line : Nat) : Token := { kind := .plus, lexeme := "+", line }
    let addend (line : Nat) (value : Value) : Addend := ⟨summand value, plus line, rfl⟩
    let broken : PlusChain :=
      ⟨summand (.number 1), [addend 1 (.number 2), addend 2 .nil, addend 3 (.string "a")]⟩
    let joined : PlusChain :=
      ⟨summand (.boolean true), [addend 1 (.string "a"), addend 2 .nil]⟩
    let summed : PlusChain := ⟨summand (.number 1), [addend 1 (.number 2)]⟩
    (Unsummable broken.values ∧ ∃ e operands,
      Parse.expression (broken.tokens ++ [.eof 4]) = .ok e ∧
      e.evaluate = .error (.refused ⟨.numbersOrStrings, plus 2⟩ operands)) ∧
    (¬ Unsummable joined.values ∧ firstString joined.values ≤ joined.values.length ∧
      ∃ e, Parse.expression (joined.tokens ++ [.eof 4]) = .ok e ∧
        e.evaluate = .ok (.string "trueanil")) ∧
    (¬ Unsummable summed.values ∧ summed.values.length < firstString summed.values ∧
      ∃ e value, Parse.expression (summed.tokens ++ [.eof 4]) = .ok e ∧
        Amounts [.number 1, .number 2] value ∧ e.evaluate = .ok value) := by
  intro summand plus addend broken joined summed
  have hbroken : Unsummable broken.values :=
    ⟨Nat.le_succ 3, .nil, List.mem_cons_of_mem _ (List.mem_cons_of_mem _ List.mem_cons_self), rfl⟩
  have hjoined : ¬ Unsummable joined.values := fun h => absurd h.1 (Nat.lt_irrefl 2)
  have hsummed : ¬ Unsummable summed.values :=
    (Amounts.sum 1 [2]).not_unsummable [] rfl
  have hclosing : (Token.eof 4).kind = .eof := rfl
  obtain ⟨e, he, hstops, -, -⟩ := chain_total broken hclosing
  obtain ⟨a, operands, ha, hfault⟩ := hstops hbroken
  obtain rfl : addend 2 .nil = a := Option.some.inj ha
  obtain ⟨e', he', -, -, hjoins⟩ := chain_total joined hclosing
  obtain ⟨text, htext, hstring⟩ := hjoins hjoined (Nat.le_succ 2)
  obtain rfl : text = "true" := by
    cases htext with
    | some hamounts =>
      cases hamounts with
      | single _ => rfl
  obtain ⟨e'', he'', -, hsums, -⟩ := chain_total summed hclosing
  obtain ⟨value, hamounts, hvalue⟩ := hsums hsummed (Nat.lt_succ_self 2)
  exact ⟨⟨hbroken, e, operands, he, hfault⟩, ⟨hjoined, Nat.le_succ 2, e', he', hstring⟩,
    hsummed, Nat.lt_succ_self 2, e'', value, he'', hamounts, hvalue⟩

end PlusChain

end Reckon
