import Reckon.Proofs.FailureShape

/-!
# Sessions at the prompt

The input of a session is cut into lines by its bytes, and the byte of a line break stands in
the encoding of no other character. So the lines that are answered are the lines of the
text, each with its line break if it has one. Each is answered as the command answers it by
itself, and the session is the prompts and these answers one after the other.
-/
namespace Reckon.CommandLine
open Prompt

/-- The bytes of a text. -/
def bytesOf (text : String) : List UInt8 := text.toUTF8.toList

theorem toList_loop (bytes : ByteArray) (i : Nat) (front : List UInt8) :
    ByteArray.toList.loop bytes i front = front.reverse ++ bytes.data.toList.drop i := by
  fun_induction ByteArray.toList.loop bytes i front with
  | case1 i front hlt ih =>
    have hlength : i < bytes.data.toList.length := by simpa using hlt
    have hget : bytes.get! i = bytes.data.toList[i] := by
      cases bytes with
      | mk data => exact getElem!_pos data i hlt
    rw [ih, List.drop_eq_getElem_cons hlength, hget]
    simp
  | case2 i front hge =>
    rw [List.drop_eq_nil_of_le (by simpa using hge), List.append_nil]

theorem toList_eq_data (bytes : ByteArray) : bytes.toList = bytes.data.toList :=
  toList_loop bytes 0 []

theorem bytesOf_eq (text : String) : bytesOf text = text.toList.flatMap String.utf8EncodeChar := by
  rw [bytesOf, toList_eq_data, String.toUTF8_eq_toByteArray, ← String.utf8Encode_toList]
  simp [List.utf8Encode]

theorem bytesOf_append (x y : String) : bytesOf (x ++ y) = bytesOf x ++ bytesOf y := by
  simp [bytesOf_eq]

theorem bytesOf_empty : bytesOf "" = [] := by
  rw [bytesOf_eq, String.toList_empty, List.flatMap_nil]

theorem bytesOf_lineBreak : bytesOf "\n" = [10] := by
  rw [bytesOf_eq]
  decide

/-- The bytes of a text are read as that text. -/
theorem fromUTF8?_bytesOf (text : String) :
    String.fromUTF8? ⟨(bytesOf text).toArray⟩ = some text := by
  have hbytes : (⟨(bytesOf text).toArray⟩ : ByteArray) = text.toByteArray := by
    rw [bytesOf, toList_eq_data, String.toUTF8_eq_toByteArray]
  rw [hbytes, String.fromUTF8?, dif_pos text.isValidUTF8]
  rfl

theorem bytesOf_injective : Function.Injective bytesOf := by
  intro x y h
  have hread := fromUTF8?_bytesOf x
  rw [h, fromUTF8?_bytesOf] at hread
  exact (Option.some.inj hread).symm

theorem bytesOf_ne_nil {text : String} (h : text ≠ "") : bytesOf text ≠ [] := fun hnil =>
  h (bytesOf_injective (hnil.trans bytesOf_empty.symm))

/-- All bytes of a character with more than one byte are larger. -/
theorem eq_lineBreak_of_mem {c : Char} (h : 10 ∈ String.utf8EncodeChar c) : c = '\n' := by
  have hbyte : ∀ n, 10 = UInt8.ofNat n → n % 256 = 10 := fun n hn => by
    simpa using (congrArg UInt8.toNat hn).symm
  have hval : c.val.toNat = 10 := by
    unfold String.utf8EncodeChar at h
    dsimp only at h
    split_ifs at h <;> simp only [List.mem_cons, List.not_mem_nil, or_false] at h
    · have := hbyte _ h
      omega
    · rcases h with h | h <;> have := hbyte _ h <;> omega
    · rcases h with h | h | h <;> have := hbyte _ h <;> omega
    · rcases h with h | h | h | h <;> have := hbyte _ h <;> omega
  exact Char.ext (UInt32.toNat_inj.mp hval)

theorem not_mem_bytesOf {text : String} (h : '\n' ∉ text.toList) : 10 ∉ bytesOf text := by
  intro hmem
  rw [bytesOf_eq] at hmem
  obtain ⟨c, hc, hbyte⟩ := List.mem_flatMap.mp hmem
  exact h (eq_lineBreak_of_mem hbyte ▸ hc)

/-- `IsLines ls`: the texts are the lines of a text. All but the last end with the line break,
which they have nowhere else, and the last one may lack it if it is not empty. -/
inductive IsLines : List String → Prop
  | nil : IsLines []
  | last {line} : line ≠ "" → '\n' ∉ line.toList → IsLines [line]
  | cons {body ls} : '\n' ∉ body.toList → IsLines ls → IsLines ((body ++ "\n") :: ls)

theorem IsLines.ne_empty {ls : List String} (h : IsLines ls) : ∀ line ∈ ls, line ≠ "" := by
  induction h with
  | nil => exact List.forall_mem_nil _
  | last hne _ => exact List.forall_mem_singleton.mpr hne
  | cons _ _ ih => exact List.forall_mem_cons.mpr ⟨by simp, ih⟩

theorem endsLine_iff {b : UInt8} : endsLine b = true ↔ b = 10 := beq_iff_eq

theorem splitLines_of_not_mem {line : List UInt8} (hne : line ≠ []) (h : 10 ∉ line) :
    splitLines line = [line] := by
  induction line with
  | nil => exact absurd rfl hne
  | cons b line ih =>
    obtain ⟨hb, hline⟩ := not_or.mp (mt List.mem_cons.mpr h)
    rw [splitLines, if_neg (mt endsLine_iff.mp (Ne.symm hb))]
    cases line with
    | nil => rfl
    | cons d line => rw [ih (by simp) hline]

theorem splitLines_append {body : List UInt8} (h : 10 ∉ body) (rest : List UInt8) :
    splitLines (body ++ 10 :: rest) = (body ++ [10]) :: splitLines rest := by
  induction body with
  | nil => rw [List.nil_append, splitLines, if_pos (endsLine_iff.mpr rfl), List.nil_append]
  | cons b body ih =>
    obtain ⟨hb, hbody⟩ := not_or.mp (mt List.mem_cons.mpr h)
    rw [List.cons_append, splitLines, if_neg (mt endsLine_iff.mp (Ne.symm hb)), ih hbody,
      List.cons_append]

/-- The input of a session is cut into the lines of its text. -/
theorem splitLines_join {ls : List String} (h : IsLines ls) :
    splitLines (bytesOf (String.join ls)) = ls.map bytesOf := by
  induction h with
  | nil => rw [String.join_nil, bytesOf_empty, splitLines, List.map_nil]
  | @last line hne hline =>
    rw [String.join_cons, String.join_nil, String.append_empty,
      splitLines_of_not_mem (bytesOf_ne_nil hne) (not_mem_bytesOf hline), List.map_singleton]
  | @cons body ls hbody _ ih =>
    rw [String.join_cons, bytesOf_append, bytesOf_append, bytesOf_lineBreak, List.append_assoc,
      List.singleton_append, splitLines_append (not_mem_bytesOf hbody), ih, List.map_cons,
      bytesOf_append, bytesOf_lineBreak]

/-- A character in front of a text that is no line break belongs to the first line. -/
theorem IsLines.exists_cons {ls : List String} (h : IsLines ls) {c : Char} (hc : c ≠ '\n') :
    ∃ ls', IsLines ls' ∧ String.join ls' = String.singleton c ++ String.join ls := by
  have hbefore : ∀ {text : String}, '\n' ∉ text.toList →
      '\n' ∉ (String.singleton c ++ text).toList := by
    intro text htext
    simp [htext, hc.symm]
  cases h with
  | nil => exact ⟨[String.singleton c], .last (by simp) (by simp [hc.symm]), by simp⟩
  | @last line _ hline =>
    exact ⟨[String.singleton c ++ line], .last (by simp) (hbefore hline), by simp⟩
  | @cons body ls hbody hls =>
    refine ⟨(String.singleton c ++ body ++ "\n") :: ls, .cons (hbefore hbody) hls, ?_⟩
    simp [String.append_assoc]

theorem exists_isLines (text : String) : ∃ ls, IsLines ls ∧ String.join ls = text := by
  obtain ⟨cs, rfl⟩ : ∃ cs, String.ofList cs = text := ⟨_, String.ofList_toList⟩
  induction cs with
  | nil => exact ⟨[], .nil, rfl⟩
  | cons c cs ih =>
    obtain ⟨ls, hls, hjoin⟩ := ih
    have htext : String.ofList (c :: cs) = String.singleton c ++ String.join ls := by
      rw [hjoin]
      apply String.toList_injective
      simp
    rw [htext]
    by_cases hc : c = '\n'
    · subst hc
      exact ⟨("" ++ "\n") :: ls, .cons (by simp) hls, by simp⟩
    · exact hls.exists_cons hc

theorem IsLines.unique {ls ls' : List String} (h : IsLines ls) (h' : IsLines ls')
    (hjoin : String.join ls = String.join ls') : ls = ls' := by
  have hbytes := splitLines_join h
  rw [hjoin, splitLines_join h'] at hbytes
  exact (List.map_injective_iff.mpr bytesOf_injective hbytes).symm

/-- Lines can be followed by others if the last one has its line break. -/
theorem IsLines.append {xs ys : List String} (hx : IsLines xs)
    (hclosed : ∀ c ∈ (String.join xs).toList.getLast?, c = '\n') (hy : IsLines ys) :
    IsLines (xs ++ ys) := by
  induction hx with
  | nil => exact hy
  | @last line hne hline =>
    rw [String.join_cons, String.join_nil, String.append_empty] at hclosed
    have hchars : line.toList ≠ [] := mt String.toList_eq_nil_iff.mp hne
    have hlast := hclosed _ (List.getLast?_eq_some_getLast hchars)
    exact absurd (hlast ▸ List.getLast_mem hchars) hline
  | @cons body xs hbody _ ih =>
    refine .cons hbody (ih fun c hc => hclosed c ?_)
    rw [String.join_cons, String.toList_append, List.getLast?_append, hc]
    rfl

namespace Response

@[simp] theorem stdout_append (a b : Response) : (a ++ b).stdout = a.stdout ++ b.stdout := rfl

@[simp] theorem stderr_append (a b : Response) : (a ++ b).stderr = a.stderr ++ b.stderr := rfl

end Response

/-- The arguments that run a text in a mode. -/
def Mode.arguments (mode : Mode) (text : String) : List String :=
  match mode with
  | .value => ["--", text]
  | .tree => ["--ast", "--", text]
  | .program => ["--program", "--", text]

theorem ofArguments_arguments (mode : Mode) (text : String) :
    Request.ofArguments (mode.arguments text) = .once { mode } text := by
  cases mode <;> rfl

theorem run_arguments (read : Reader) (input : ByteArray) (stamp : String) (mode : Mode)
    (text : String) : run read input stamp (mode.arguments text) = quietly mode text :=
  run_once (ofArguments_arguments mode text) rfl rfl input stamp

/-- What the command does with a line by itself. A blank line is not run. -/
def alone (mode : Mode) (line : String) : Response :=
  if Text.isBlank line then {}
  else run (fun _ => .error .missing) .empty "" (mode.arguments line)

theorem answer_warn {options : Options} (h : options.detail = .warn) (stamp line : String) :
    answer options stamp line = { alone options.mode line with exit := 0 } := by
  rw [answer, alone, run_arguments, respond_warn h]
  split <;> rfl

/-- No line reaches a token that is no operator, which would end the command. -/
theorem exit_alone (mode : Mode) (line : String) : (alone mode line).exit ≠ Response.badTree := by
  have hfailed : ∀ failure : Failure,
      (if failure.hadError then Response.badText else Response.badOperand) ≠ Response.badTree := by
    intro failure
    split <;> decide
  rw [alone, run_arguments]
  split
  · decide
  · have hruns := concludes_runIn mode line
    unfold quietly
    generalize (runIn mode line).result = verdict at hruns
    cases hruns with
    | done => exact (by decide : 0 ≠ Response.badTree)
    | refused | stopped =>
      dsimp only
      exact hfailed _

/-- `IsSession mode ls response`: the response is a prompt before each line and the answer to
that line alone after it, and a last prompt. -/
structure IsSession (mode : Mode) (ls : List String) (response : Response) : Prop where
  stdout : response.stdout =
    String.join (ls.map fun line => "> " ++ (alone mode line).stdout) ++ "> "
  stderr : response.stderr = String.join (ls.map fun line => (alone mode line).stderr)
  exit : response.exit = 0

theorem turn_bytesOf {line : String} (h : line ≠ "") (options : Options) (stamp : String) :
    turn options stamp ⟨(bytesOf line).toArray⟩ = ⟨answer options stamp line, true⟩ := by
  have hsome : ¬ (⟨(bytesOf line).toArray⟩ : ByteArray).isEmpty := by
    simpa [ByteArray.isEmpty, ByteArray.size] using bytesOf_ne_nil h
  rw [turn, if_neg hsome, fromUTF8?_bytesOf]

theorem isSession_session {options : Options} (h : options.detail = .warn) (stamp : String)
    {ls : List String} (hls : ∀ line ∈ ls, line ≠ "") :
    IsSession options.mode ls (session options stamp (ls.map bytesOf)) := by
  induction ls with
  | nil => exact ⟨rfl, rfl, rfl⟩
  | cons line ls ih =>
    obtain ⟨hline, hls⟩ := List.forall_mem_cons.mp hls
    have ih := ih hls
    simp only [List.map_cons, session, turn_bytesOf hline, answer_warn h, if_true]
    exact {
      stdout := by simp [ih.stdout, mark, String.append_assoc]
      stderr := by simp [ih.stderr]
      exit := ih.exit }

section Run
variable {arguments : List String} {options : Options}

theorem run_prompt (hrequest : Request.ofArguments arguments = .prompt options)
    (hdetail : options.detail = .warn) (read : Reader) (stamp : String) {ls : List String}
    (h : IsLines ls) :
    IsSession options.mode ls (run read (String.join ls).toUTF8 stamp arguments) := by
  have hrun : run read (String.join ls).toUTF8 stamp arguments =
      session options stamp (ls.map bytesOf) := by
    simp only [run, hrequest, prompt, hdetail, logLines_warn]
    rw [← splitLines_join h]
    exact Response.empty_append _
  rw [hrun]
  exact isSession_session hdetail stamp h.ne_empty

/-- A session is the runs of its lines one after the other. Every input has its lines, and for
each the command writes what it writes for that line alone, which no other line changes. No
line ends the session. So a session can be cut after any line break, and what is written for
each part is what is written for that part as a session of its own. -/
theorem prompt_answers_lines (hrequest : Request.ofArguments arguments = .prompt options)
    (hdetail : options.detail = .warn) (read : Reader) (stamp : String) :
    let response (input : String) := run read input.toUTF8 stamp arguments
    (∀ input, ∃! ls, IsLines ls ∧ String.join ls = input) ∧
    (∀ ls, IsLines ls → IsSession options.mode ls (response (String.join ls))) ∧
    (∀ line, (alone options.mode line).exit ≠ Response.badTree) ∧
    ∀ x y, (x = "" ∨ ∃ body, x = body ++ "\n") →
      ∃ before, (response x).stdout = before ++ "> " ∧
        (response (x ++ y)).stdout = before ++ (response y).stdout ∧
        (response (x ++ y)).stderr = (response x).stderr ++ (response y).stderr ∧
        (response (x ++ y)).exit = 0 := by
  intro response
  have hsession : ∀ ls, IsLines ls → IsSession options.mode ls (response (String.join ls)) :=
    fun ls => run_prompt hrequest hdetail read stamp
  refine ⟨fun input => ?_, hsession, exit_alone options.mode, fun x y hx => ?_⟩
  · obtain ⟨ls, hls, hjoin⟩ := exists_isLines input
    exact ⟨ls, ⟨hls, hjoin⟩, fun ls' ⟨hls', hjoin'⟩ => hls'.unique hls (hjoin'.trans hjoin.symm)⟩
  · -- The lines of the two parts together are the lines of the whole.
    obtain ⟨xs, hxs, rfl⟩ := exists_isLines x
    obtain ⟨ys, hys, rfl⟩ := exists_isLines y
    have hclosed : ∀ c ∈ (String.join xs).toList.getLast?, c = '\n' := by
      rcases hx with hx | ⟨body, hx⟩ <;> simp [hx]
    have hfirst := hsession xs hxs
    have hsecond := hsession ys hys
    have hboth := hsession (xs ++ ys) (hxs.append hclosed hys)
    rw [String.join_append] at hboth
    refine ⟨_, hfirst.stdout, ?_, ?_, hboth.exit⟩
    · rw [hboth.stdout, hsecond.stdout, List.map_append, String.join_append, String.append_assoc]
    · rw [hboth.stderr, hfirst.stderr, hsecond.stderr, List.map_append, String.join_append]

end Run

/-- A line that is run, a blank one, and one without a line break that is refused. -/
theorem prompt_answers_lines_three :
    let ls := ["print nil;\n", "\t\n", "-nil;"]
    let response := run (fun _ => .error .missing) "print nil;\n\t\n-nil;".toUTF8 "" ["-p"]
    Request.ofArguments ["-p"] = .prompt { mode := .program } ∧ IsLines ls ∧
    response.stdout = "> nil\n> > > " ∧
    response.stderr = "[line 1] Error at '-': Operand must be a number.\n" ∧
    response.exit = 0 := by
  intro ls response
  have hrequest : Request.ofArguments ["-p"] = .prompt { mode := .program } := rfl
  have hblank : IsLines ["\t\n", "-nil;"] :=
    @IsLines.cons "\t" _ (by decide) (.last (by decide) (by decide))
  have hlines : IsLines ls := @IsLines.cons "print nil;" _ (by decide) hblank
  obtain ⟨-, hsession, -⟩ := prompt_answers_lines hrequest rfl (fun _ => .error .missing) ""
  have hresponse : IsSession .program ls response := hsession ls hlines
  have hstdout := hresponse.stdout
  have hstderr := hresponse.stderr
  exact ⟨hrequest, hlines, by rw [hstdout]; with_unfolding_all rfl,
    by rw [hstderr]; with_unfolding_all rfl, hresponse.exit⟩

end Reckon.CommandLine
