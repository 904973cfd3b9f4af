import Reckon.Proofs.MaximalMunch
import Reckon.Proofs.StatementReading
import Reckon.Session

/-!
# No source text is misused

The trees that the parser builds have operators only of the kinds that evaluation
supports at their place, so an evaluation ends in a value or in a refusal of the
operands. The scanner makes tokens of no skipped text, and its string tokens can be
cut between their quotes.
-/
namespace Reckon
open Grammar Parse

/-- Operators before an operand. -/
def unaryKinds : List Kind := [.minus, .bang]

/-- Operators between operands. -/
def binaryKinds : List Kind :=
  [.plus, .minus, .star, .slash, .greater, .greaterEqual, .less, .lessEqual, .equalEqual,
    .bangEqual]

/-- Every operator of a tree is of a kind that can stand at its place. -/
def Expr.Supported : Expr → Prop
  | literal _ => True
  | unary operator operand => operator.kind ∈ unaryKinds ∧ operand.Supported
  | binary left operator right =>
    operator.kind ∈ binaryKinds ∧ left.Supported ∧ right.Supported
  | grouping inner => inner.Supported
  | ternary condition thenBranch elseBranch =>
    condition.Supported ∧ thenBranch.Supported ∧ elseBranch.Supported

theorem joiners_subset (level : Level) : joiners level ⊆ binaryKinds := by
  cases level <;> decide

theorem Grammar.Derives.supported {s : Symbol} {p : List Token} {e : Expr} (h : Derives s p e) :
    e.Supported := by
  induction h with
  | unconditional _ ih | single _ ih | unprefixed _ ih => exact ih
  | conditional _ _ _ _ _ ihc iha ihb => exact ⟨ihc, iha, ihb⟩
  | joined _ ho _ iha ihb => exact ⟨joiners_subset _ ho, iha, ihb⟩
  | prefixed ho _ ih =>
    refine ⟨?_, ih⟩
    rcases ho with ho | ho <;> simp [ho, unaryKinds]
  | atom _ => trivial
  | group _ _ _ ih => exact ih

namespace Parse

theorem expression_supported {ts : List Token} {e : Expr} (h : expression ts = .ok e) :
    e.Supported := by
  obtain ⟨t, rest, hr, -⟩ := expression_eq_ok_iff.mp h
  obtain ⟨p, -, hp⟩ := hr.covers
  exact Derives.supported hp

theorem ReadsStatement.supported {ts rest : List Token} {s : Statement}
    (h : ReadsStatement ts (.ok s) rest) : s.expr.Supported := by
  cases h with
  | complete ho he _ =>
    obtain ⟨p, -, hp⟩ := he.covers
    cases ho with
    | print _ => exact Derives.supported hp
    | bare _ => exact Derives.supported hp

theorem rounds_supported {ts : List Token} {s : Statement} (h : .ok s ∈ rounds ts) :
    s.expr.Supported := by
  fun_induction rounds ts with
  | case1 => cases h
  | case2 ts _ s' rest _ hs ih =>
    have hr := readsStatement_statement ts
    rw [hs] at hr
    rcases List.mem_cons.mp h with heq | h
    · cases heq
      exact hr.supported
    · exact ih h
  | case3 ts _ x rest _ _ ih =>
    rcases List.mem_cons.mp h with heq | h
    · cases heq
    · split at h
      · cases h
      · next hrest => exact ih hrest h

theorem program_supported {ts : List Token} {ss : List Statement} (h : program ts = .ok ss) :
    ∀ s ∈ ss, s.expr.Supported := by
  obtain ⟨-, rfl⟩ := program_eq_ok_iff.mp h
  intro s hs
  obtain ⟨r, hr, hrs⟩ := List.mem_filterMap.mp hs
  cases r with
  | error x => cases hrs
  | ok s' =>
    cases hrs
    exact rounds_supported hr

end Parse

/-- An outcome other than a misuse: a value, or a refusal. -/
def Settles {α : Type} (outcome : Except Fault α) : Prop :=
  ∀ misuse, outcome ≠ .error (.unsupported misuse)

section Settles
variable {α β : Type}

theorem settles_ok (a : α) : Settles (.ok a) := nofun

theorem settles_refused (error : RuntimeError) (operands : List Value) :
    Settles (.error (.refused error operands) : Except Fault α) := nofun

theorem Settles.bind {x : Except Fault α} {f : α → Except Fault β} (hx : Settles x)
    (hf : ∀ a, Settles (f a)) : Settles (x >>= f) := by
  cases x with
  | ok a => exact hf a
  | error fault =>
    rintro misuse h
    cases h
    exact hx misuse rfl

theorem settles_iff {x : Except Fault α} :
    Settles x ↔ (∃ a, x = .ok a) ∨ ∃ error operands, x = .error (.refused error operands) := by
  constructor
  · intro h
    rcases x with (⟨error, operands⟩ | misuse) | a
    · exact .inr ⟨error, operands, rfl⟩
    · exact absurd rfl (h misuse)
    · exact .inl ⟨a, rfl⟩
  · rintro (⟨a, rfl⟩ | ⟨error, operands, rfl⟩)
    · exact settles_ok a
    · exact settles_refused error operands

end Settles

namespace Operator

theorem settles_numbers (operator : Token) (left right : Value) :
    Settles (numbers operator left right) := by
  unfold numbers
  split
  · exact settles_ok _
  · exact settles_refused _ _

theorem settles_arithmetic {operator : Token} (h : operator.kind ∈ [Kind.minus, .star, .slash])
    (left right : Value) : Settles (arithmetic operator left right) := by
  refine (settles_numbers operator left right).bind fun ⟨x, y⟩ => ?_
  simp only [List.mem_cons, List.not_mem_nil, or_false] at h
  rcases h with h | h | h <;> simp only [h] <;> exact settles_ok _

theorem settles_addition (operator : Token) (left right : Value) :
    Settles (addition operator left right) := by
  unfold addition
  split
  · exact settles_ok _
  · split
    · exact settles_ok _
    · exact settles_refused _ _

theorem settles_comparison {operator : Token}
    (h : operator.kind ∈ [Kind.greater, .greaterEqual, .less, .lessEqual]) (left right : Value) :
    Settles (comparison operator left right) := by
  refine (settles_numbers operator left right).bind fun ⟨x, y⟩ => ?_
  simp only [List.mem_cons, List.not_mem_nil, or_false] at h
  rcases h with h | h | h | h <;> simp only [h] <;> exact settles_ok _

theorem settles_equality {kind : Kind} (h : kind ∈ [Kind.equalEqual, .bangEqual])
    (left right : Value) : Settles (equality kind left right) := by
  simp only [List.mem_cons, List.not_mem_nil, or_false] at h
  rcases h with rfl | rfl <;> exact settles_ok _

theorem settles_unary {operator : Token} (h : operator.kind ∈ unaryKinds) (value : Value) :
    Settles (unary operator value) := by
  simp only [unaryKinds, List.mem_cons, List.not_mem_nil, or_false] at h
  rcases h with h | h
  · simp only [unary, h]
    split
    · exact settles_ok _
    · exact settles_refused _ _
  · simp only [unary, h]
    exact settles_ok _

/-- Each kind is handed to a family of operators that has it. -/
theorem settles_binary {operator : Token} (h : operator.kind ∈ binaryKinds) (left right : Value) :
    Settles (binary operator left right) := by
  unfold binary
  split
  · exact settles_addition operator left right
  · next hk => exact settles_arithmetic (by simp [hk]) left right
  · next hk => exact settles_arithmetic (by simp [hk]) left right
  · next hk => exact settles_arithmetic (by simp [hk]) left right
  · next hk => exact settles_comparison (by simp [hk]) left right
  · next hk => exact settles_comparison (by simp [hk]) left right
  · next hk => exact settles_comparison (by simp [hk]) left right
  · next hk => exact settles_comparison (by simp [hk]) left right
  · next hk => exact settles_equality (by simp [hk]) left right
  · next hk => exact settles_equality (by simp [hk]) left right
  · simp_all [binaryKinds]

end Operator

theorem Expr.Supported.settles {e : Expr} (h : e.Supported) : Settles e.evaluate := by
  induction e with
  | literal value => exact settles_ok value
  | grouping inner ih => exact ih h
  | unary operator operand ih => exact (ih h.2).bind (Operator.settles_unary h.1)
  | binary left operator right ihl ihr =>
    exact (ihl h.2.1).bind fun l => (ihr h.2.2).bind (Operator.settles_binary h.1 l)
  | ternary condition thenBranch elseBranch ihc iha ihb =>
    refine (ihc h.1).bind fun c => ?_
    split
    · exact iha h.2.1
    · exact ihb h.2.2

/-- A supported statement is executed or refused, and never misused. -/
theorem execute_fault_ne {s : Statement} (h : s.expr.Supported) (output : List String)
    (misuse : Misuse) : (s.execute output).fault ≠ some (.unsupported misuse) := by
  have hset := h.settles
  cases s with
  | expression e | print e =>
    simp only [Statement.execute]
    split
    · nofun
    · next fault hf =>
      rintro heq
      cases heq
      exact hset misuse hf

theorem interpret_fault_ne {ss : List Statement} (h : ∀ s ∈ ss, s.expr.Supported)
    (output : List String) (misuse : Misuse) :
    (interpret output ss).fault ≠ some (.unsupported misuse) := by
  induction ss generalizing output with
  | nil => simp [interpret]
  | cons s rest ih =>
    obtain ⟨hs, hrest⟩ := List.forall_mem_cons.mp h
    simp only [interpret]
    split
    · exact ih hrest _
    · exact execute_fault_ne hs output misuse

namespace Session

theorem stop_ne_misused {α : Type} {fault : Fault} (h : ∀ misuse, fault ≠ .unsupported misuse)
    (output : List String) (misuse : Misuse) :
    (stop output fault : Verdict α) ≠ .misused misuse := by
  cases fault with
  | refused error operands => nofun
  | unsupported other => exact absurd rfl (h other)

theorem expression_supported {source : String} {e : Expr}
    (h : (expression source).result = .ok e) : e.Supported := by
  unfold expression at h
  simp only at h
  split at h
  · next e' he =>
    split at h
    · cases h
      exact Parse.expression_supported he
    · cases h
  · cases h

theorem statements_supported {source : String} {ss : List Statement}
    (h : (statements source).result = .ok ss) : ∀ s ∈ ss, s.expr.Supported := by
  unfold statements at h
  simp only at h
  split at h
  · next ss' hss =>
    split at h
    · cases h
      exact Parse.program_supported hss
    · cases h
  · cases h

theorem evaluate_ne_misused (source : String) (misuse : Misuse) :
    (evaluate source).result ≠ .misused misuse := by
  unfold evaluate
  simp only
  split
  · nofun
  · next e he =>
    split
    · nofun
    · next fault hf =>
      have hset := (expression_supported he).settles
      exact stop_ne_misused (fun other heq => hset other (heq ▸ hf)) [] misuse

theorem render_ne_misused (source : String) (misuse : Misuse) :
    (render source).result ≠ .misused misuse := by
  unfold render
  simp only
  split <;> nofun

theorem run_ne_misused (source : String) (misuse : Misuse) :
    (run source).result ≠ .misused misuse := by
  unfold run
  simp only
  split
  · nofun
  · next ss hss =>
    split
    · nofun
    · next fault hf =>
      have hne := interpret_fault_ne (statements_supported hss) []
      exact stop_ne_misused (fun other heq => hne other (heq ▸ hf)) _ misuse

end Session

/-- Patterns whose matches are passed over or reported. -/
def Pattern.isSkipped : Pattern → Bool
  | unterminated | comment | lineBreak | blank => true
  | number | string | fixed _ | identifier => false

/-- Whether a piece is handed on to become a token. -/
def Piece.isHandedOn : Piece → Bool
  | matched p _ => !p.isSkipped
  | stray _ => false

theorem Piece.lexeme_content? (piece : Piece) :
    piece.content?.map (·.2.1) =
      if piece.isHandedOn then some (String.ofList piece.text) else none := by
  cases piece with
  | stray c => rfl
  | matched p w => cases p <;> rfl

/-- The tokens of a text are made of the pieces that are handed on. -/
theorem Munch.map_lexeme {cs : List Char} {pieces : List Piece} (h : Munch cs pieces) (line : Nat) :
    ((Source.layout cs line).filterMap Placed.token?).map Token.lexeme =
      (pieces.filter Piece.isHandedOn).map fun piece => String.ofList piece.text := by
  have hlexeme : Token.lexeme = (fun c => c.2.1) ∘ Token.content := rfl
  rw [hlexeme, ← List.map_map, h.map_content, List.map_filterMap, ← List.filterMap_eq_map,
    List.filterMap_filter]
  exact List.filterMap_congr fun piece _ => piece.lexeme_content?

/-- The bytes of a text from `start` to `stop` are `part`, and both positions lie between
characters. -/
def Slices (text : String) (start stop : Nat) (part : String) : Prop :=
  ∃ before after, text = before ++ part ++ after ∧ before.utf8ByteSize = start ∧
    before.utf8ByteSize + part.utf8ByteSize = stop

theorem slices_quoted (inner : List Char) :
    Slices (String.ofList ('"' :: (inner ++ ['"']))) 1
      ((String.ofList ('"' :: (inner ++ ['"']))).utf8ByteSize - 1) (String.ofList inner) := by
  have htext : String.ofList ('"' :: (inner ++ ['"'])) = "\"" ++ String.ofList inner ++ "\"" := by
    apply String.toList_injective
    simp
  have hquote : "\"".utf8ByteSize = 1 := rfl
  refine ⟨"\"", "\"", htext, rfl, ?_⟩
  rw [htext, String.utf8ByteSize_append, String.utf8ByteSize_append, hquote]
  omega

theorem eq_string_of_kind {p : Pattern} {w : List Char} (hw : w ∈ p.language)
    (hp : p.kind? = some .string) : p = .string := by
  cases p with
  | string => rfl
  | fixed kind =>
    cases hp
    cases Pattern.mem_fixed.mp hw
  | number | identifier | unterminated | comment | lineBreak | blank => cases hp

/-- The text of a string token can be cut behind its first byte and before its last one,
and its literal is what stands between. -/
theorem slices_of_string {source : String} {token : Token} (ht : token ∈ (scan source).tokens)
    (hk : token.kind = .string) :
    ∃ part, Slices token.lexeme 1 (token.lexeme.utf8ByteSize - 1) part ∧
      token.literal = some (.string part) := by
  rcases List.mem_append.mp ht with ht | ht
  · obtain ⟨pieces, hmunch, -⟩ := munch_split source.toList
    obtain ⟨p, hkind, hw, hliteral⟩ := hmunch.exists_pattern ht
    obtain rfl := eq_string_of_kind hw (hk ▸ hkind)
    obtain ⟨inner, -, heq⟩ := Pattern.mem_string.mp hw
    have hlexeme : token.lexeme = String.ofList ('"' :: (inner ++ ['"'])) := by
      rw [← heq, String.ofList_toList]
    refine ⟨String.ofList inner, hlexeme ▸ slices_quoted inner, ?_⟩
    rw [hliteral, heq]
    simp [Pattern.literal?]
  · rw [List.mem_singleton.mp ht] at hk
    cases hk

/-- No run of a source text is misused, and no step on the way can be. String tokens can be
cut, skipped pieces make no tokens, the trees that the parser accepts are supported, and
supported trees evaluate to a value or are refused. -/
theorem never_misused :
    (∀ source misuse,
      (Session.evaluate source).result ≠ .misused misuse ∧
      (Session.run source).result ≠ .misused misuse ∧
      (Session.render source).result ≠ .misused misuse) ∧
    (∀ source, ∀ token ∈ (scan source).tokens, token.kind = .string →
      ∃ part, Slices token.lexeme 1 (token.lexeme.utf8ByteSize - 1) part ∧
        token.literal = some (.string part)) ∧
    (∀ source, ∃ pieces, Munch source.toList pieces ∧
      (scan source).tokens.dropLast.map Token.lexeme =
        (pieces.filter Piece.isHandedOn).map fun piece => String.ofList piece.text) ∧
    (∀ ts e, Parse.expression ts = .ok e → e.Supported) ∧
    (∀ ts ss, Parse.program ts = .ok ss → ∀ s ∈ ss, s.expr.Supported) ∧
    ∀ e : Expr, e.Supported → (∃ value, e.evaluate = .ok value) ∨
      ∃ error operands, e.evaluate = .error (.refused error operands) := by
  refine ⟨fun source misuse => ?_, fun source token => slices_of_string, fun source => ?_,
    fun ts e => Parse.expression_supported, fun ts ss => Parse.program_supported,
    fun e h => settles_iff.mp h.settles⟩
  · exact ⟨Session.evaluate_ne_misused source misuse, Session.run_ne_misused source misuse,
      Session.render_ne_misused source misuse⟩
  · obtain ⟨pieces, hmunch, -⟩ := munch_split source.toList
    refine ⟨pieces, hmunch, ?_⟩
    rw [scan, Scan.ofChars, List.dropLast_concat]
    exact hmunch.map_lexeme 1

/-- A negated string, as an expression and as a statement: its tree is supported, and the
string can be cut although its character takes two bytes. -/
theorem never_misused_negated_string :
    let minus : Token := { kind := .minus, lexeme := "-", line := 1 }
    let quoted : Token := ⟨.string, "\"é\"", some (.string "é"), 1⟩
    let semicolon : Token := { kind := .semicolon, lexeme := ";", line := 1 }
    let e := Expr.unary minus (.literal (.string "é"))
    (scan "\"é\"").tokens = [quoted, .eof 1] ∧
    (∃ part, Slices quoted.lexeme 1 3 part ∧ quoted.literal = some (.string part)) ∧
    Parse.expression [minus, quoted, .eof 1] = .ok e ∧
    Parse.program [minus, quoted, semicolon, .eof 1] = .ok [.expression e] ∧
    (Statement.expression e).expr.Supported ∧ e.Supported ∧
    ((∃ value, e.evaluate = .ok value) ∨
      ∃ error operands, e.evaluate = .error (.refused error operands)) := by
  intro minus quoted semicolon e
  have hsplit : Segment.split "\"é\"".toList =
      [⟨.token .string (some (.string "é")), "\"é\"".toList⟩] := by
    change Segment.split ['"', 'é', '"'] = _
    rw [Segment.split_cons]
    change _ :: Segment.split [] = _
    rw [Segment.split_nil]
    rfl
  have hscan : (scan "\"é\"").tokens = [quoted, .eof 1] := by
    rw [scan, Scan.ofChars, Source.layout, hsplit]
    rfl
  have hexpr : Parse.expression [minus, quoted, .eof 1] = .ok e := by cbv
  have hprog : Parse.program [minus, quoted, semicolon, .eof 1] = .ok [.expression e] := by cbv
  have hmem : quoted ∈ (scan "\"é\"").tokens := by simp [hscan]
  obtain ⟨-, hslices, -, htree, hstatements, hevaluate⟩ := never_misused
  have hsupported := htree _ _ hexpr
  exact ⟨hscan, hslices _ quoted hmem rfl, hexpr, hprog,
    hstatements _ _ hprog _ (List.mem_singleton.mpr rfl), hsupported, hevaluate e hsupported⟩

end Reckon
