import Abacus.Proofs.Diagnosis
import Abacus.Proofs.Faults
import Abacus.Proofs.SingleLine

/-!
# Conversations

A conversation answers the lines of its input one by one.  Nothing is carried from one
line to the next, so a conversation is a fold: the replies to its lines in order, with a
prompt before each and one more prompt at the end.

*Lines.*  `heard` gives the lines that a conversation comes to before it ends, and why it
ends there.  A line is cut out of bytes, and what is heard is its text.

*Replies.*  To each text there is one reply, a value or a diagnostic (`Replies`).  That
there is a value if there is no diagnostic rests on the limits of the compiler and the
machine being equal; that the reply is one line long, on the text having no line end.

*Events.*  What is written is first given as the list of all events in their order, records
of the log included (`transcript`, `result_converse`).  The texts of the outputs are read
off that list.
-/

namespace Abacus

open Text Compiler

/-! ## Lines -/

namespace Text

theorem feed_not_mem_closeLine {α : Type} [DecidableEq α] {feed : α} (ret : α) {before : List α}
    (h : feed ∉ before) : feed ∉ closeLine ret before := by
  cases before with
  | nil => exact h
  | cons c before =>
      rw [closeLine]
      split
      next => simp_all
      next => rwa [List.mem_reverse]

/-- Splitting at line ends leaves none in the lines. -/
theorem feed_not_mem_linesFrom {α : Type} [DecidableEq α] {feed ret : α} {text before : List α}
    (h : feed ∉ before) : ∀ line ∈ linesFrom feed ret text before, feed ∉ line := by
  fun_induction linesFrom feed ret text before with
  | case1 => exact nofun
  | case2 before =>
      intro line hline
      rw [List.mem_singleton.mp hline, List.mem_reverse]
      exact h
  | case3 rest before ih =>
      refine List.forall_mem_cons.mpr ⟨feed_not_mem_closeLine ret h, ih nofun⟩
  | case4 c rest before hc ih => exact ih (by simp [h, Ne.symm hc])

/-- A line end in a text is one in its bytes. -/
theorem feed_mem_of_newline_mem {line : List UInt8} {text : String}
    (h : String.fromUTF8? line.toByteArray = some text) (hmem : '\n' ∈ text.toList) :
    10 ∈ line := by
  unfold String.fromUTF8? at h
  split at h
  next hvalid =>
    obtain rfl := Option.some.inj h
    have hencoded : (String.fromUTF8 line.toByteArray hvalid).toList.utf8Encode =
        line.toByteArray :=
      congrArg String.toByteArray String.ofList_toList
    have hbytes := congrArg (fun bytes : ByteArray => bytes.data.toList) hencoded
    simp only [List.utf8Encode, List.data_toByteArray, List.toList_toArray] at hbytes
    rw [← hbytes, List.mem_flatMap]
    exact ⟨'\n', hmem, by decide⟩
  next => cases h

/-- A line that is read is a single line, also when its bytes have become text. -/
theorem singleLine_of_mem_byteLines {bytes line : List UInt8} {text : String}
    (hline : line ∈ byteLines bytes) (h : String.fromUTF8? line.toByteArray = some text) :
    SingleLine text :=
  fun hmem => feed_not_mem_linesFrom List.not_mem_nil line hline (feed_mem_of_newline_mem h hmem)

/-- Trimming leaves nothing of a text only if it was blank. -/
theorem trim_eq_nil_iff {text : List Char} : trim text = [] ↔ text.all isBlank = true := by
  have hfront : (text.dropWhile isBlank).all isBlank = text.all isBlank := by
    conv => rhs; rw [← List.takeWhile_append_dropWhile (p := isBlank) (l := text)]
    rw [List.all_append, List.all_takeWhile, Bool.true_and]
  rw [← hfront]
  simp [trim, trimEnd, trimStart]

end Text

/-- Why a conversation ends. -/
inductive Stop where
  /-- The input is over. -/
  | ended
  /-- A line is blank. -/
  | blank
  /-- A line is no text. -/
  | illegible
  deriving DecidableEq

/-- The texts of the lines that a conversation comes to before it ends, and why it ends. -/
def heard : List (List UInt8) → List String × Stop
  | [] => ([], .ended)
  | line :: lines =>
      match String.fromUTF8? line.toByteArray with
      | none => ([], .illegible)
      | some text =>
          if trim text.toList = [] then ([], .blank)
          else (text :: (heard lines).1, (heard lines).2)

example : heard (byteLines [49, 43, 50, 13, 10, 32, 10, 51]) = (["1+2"], .blank) := by
  decide +kernel

/-- What is heard are texts of lines. -/
theorem exists_line_of_mem_heard {lines : List (List UInt8)} {text : String}
    (h : text ∈ (heard lines).1) :
    ∃ line ∈ lines, String.fromUTF8? line.toByteArray = some text := by
  fun_induction heard lines with
  | case1 => cases h
  | case2 => cases h
  | case3 => cases h
  | case4 line lines text' hline _ ih =>
      rcases List.mem_cons.mp h with rfl | h
      · exact ⟨line, List.mem_cons_self, hline⟩
      · obtain ⟨other, hother, htext⟩ := ih h
        exact ⟨other, List.mem_cons_of_mem _ hother, htext⟩

/-! ## Replies -/

/-- What is said to a line. -/
inductive Reply where
  | value (v : Value)
  | problem (d : Diagnostic)

namespace Reply

/-- What a reply puts on the output. -/
def out : Reply → String
  | .value v => v.text ++ "\n"
  | .problem _ => ""

/-- What a reply puts on the error output. -/
def err : Reply → String
  | .value _ => ""
  | .problem d => d.text ++ "\n"

/-- The reply is one line on one of the outputs, and nothing on the other. -/
def OneLine (r : Reply) : Prop :=
  ∃ line, SingleLine line ∧
    (r.out = line ++ "\n" ∧ r.err = "" ∨ r.out = "" ∧ r.err = line ++ "\n")

/-- A reply as it is written. -/
def event : Reply → World.Event
  | .value v => .out (v.text ++ "\n")
  | .problem d => .err (d.text ++ "\n")

/-- What the evaluation comes to that has the reply. -/
def outcome : Reply → Except Failure (Option Value)
  | .value v => .ok (some v)
  | .problem d => .error (.compile d)

end Reply

/-- The reply to a text: the value of the chunk it compiles to, or what is wrong with it. -/
inductive Replies (text : String) : Reply → Prop where
  | value {c : Chunk} {v : Value} :
      (compile {} text).result = .ok c → (Machine.run c {}).outcome = .ok (some v) →
      Replies text (.value v)
  | problem {d : Diagnostic} : (compile {} text).result = .error d → Replies text (.problem d)

/-- Every text has a reply. -/
theorem exists_replies (text : String) : ∃ reply, Replies text reply := by
  cases h : (compile {} text).result with
  | error d => exact ⟨.problem d, .problem h⟩
  | ok c =>
      have houtcome : ∃ v, (Machine.run c {}).outcome = .ok (some v) :=
        exists_outcome_of_compile (Nat.le_refl 256) h
      obtain ⟨v, hv⟩ := houtcome
      exact ⟨.value v, .value h hv⟩

/-- To a text on a single line there is a reply on a single line. -/
theorem Replies.oneLine {text : String} {reply : Reply} (h : Replies text reply)
    (htext : SingleLine text) : reply.OneLine := by
  cases h with
  | @value c v => exact ⟨v.text, v.singleLine_text, .inl ⟨rfl, rfl⟩⟩
  | @problem d hd =>
      have hline := singleLine_text_of_diagnostic htext (Compilation.result_eq_error_iff.mp hd)
      exact ⟨d.text, hline, .inr ⟨rfl, rfl⟩⟩

/-- The reply tells how the evaluation of its text ended. -/
theorem Replies.outcome_evaluate {text : String} {reply : Reply} (h : Replies text reply) :
    (evaluate {} {} text).outcome = reply.outcome := by
  unfold evaluate
  dsimp only
  cases h with
  | value hc hv =>
      rw [hc]
      dsimp only
      rw [hv]
      rfl
  | problem hd =>
      rw [hd]
      rfl

/-! ## Answers -/

open World (Event)

/-- What is written about a text that is heard: the log, the reply, and the next prompt. -/
def exchange (prompt text : String) (reply : Reply) : List Event :=
  (evaluate {} {} text).log.toList.map Event.log ++ [reply.event, .out prompt]

/-- A line that is not blank is answered by its exchange, and the conversation goes on. -/
theorem Replies.run_answer {line : List UInt8} {text : String} {reply : Reply}
    (h : Replies text reply) (hline : String.fromUTF8? line.toByteArray = some text)
    (hblank : trim text.toList ≠ []) (prompt : String) (w : World) :
    StateT.run (Action.answer {} prompt line : StateM World _) w =
      (none, w.write (exchange prompt text reply)) := by
  have hnot : ¬ text.toList.all isBlank = true := fun hall => hblank (trim_eq_nil_iff.mpr hall)
  unfold Action.answer
  rw [hline]
  dsimp only
  rw [if_neg hnot, StateT.run_bind, World.run_writeLog, h.outcome_evaluate]
  have hwritten : ((w.write ((evaluate {} {} text).log.toList.map Event.log)).note
      reply.event).note (.out prompt) = w.write (exchange prompt text reply) := by
    simp [World.note_eq_write, exchange]
  rw [← hwritten]
  cases reply with
  | value v => rfl
  | problem d => rfl

/-- What the line comes to that ends a conversation, if there is one. -/
def Stop.result? : Stop → Option (Except Trouble Unit)
  | .ended => none
  | .blank => some (.ok ())
  | .illegible =>
      some (.error (.causes ["lecture de la ligne", "stream did not contain valid UTF-8"]))

/-- What a conversation writes that hears the given texts. -/
def transcript (prompt : String) (reply : String → Reply) (texts : List String) (stop : Stop) :
    List Event :=
  .out prompt :: (texts.flatMap fun text => exchange prompt text (reply text)) ++
    if stop = .ended then [.out "\n"] else []

section

variable {reply : String → Reply} (hreply : ∀ text, Replies text (reply text)) (prompt : String)

include hreply

/-- Lines are answered up to the one that ends the conversation. -/
theorem run_firstResult (lines : List (List UInt8)) (w : World) :
    StateT.run (World.firstResult (Action.answer {} prompt) lines) w =
      ((heard lines).2.result?,
        w.write ((heard lines).1.flatMap fun text => exchange prompt text (reply text))) := by
  fun_induction heard lines generalizing w with
  | case1 => exact congrArg (Prod.mk none) w.write_nil.symm
  | case2 line lines hline =>
      rw [World.firstResult, Action.answer, hline]
      exact congrArg (Prod.mk _) w.write_nil.symm
  | case3 line lines text hline hblank =>
      rw [World.firstResult, Action.answer, hline]
      dsimp only
      rw [if_pos (trim_eq_nil_iff.mp hblank)]
      exact congrArg (Prod.mk _) w.write_nil.symm
  | case4 line lines text hline hblank ih =>
      rw [World.firstResult, StateT.run_bind, (hreply text).run_answer hline hblank]
      refine (ih _).trans ?_
      rw [World.write_write, List.flatMap_cons]

/-- A conversation writes its transcript and ends as its stop says. -/
theorem result_converse {w : World} {texts : List String} {stop : Stop}
    (h : heard (byteLines w.input) = (texts, stop)) :
    (Action.converse {} prompt).result w =
      (stop.result?.getD (.ok ()), w.write (transcript prompt reply texts stop)) := by
  have hlines := run_firstResult hreply prompt (byteLines w.input) (w.write [.out prompt])
  rw [h, World.write_write] at hlines
  have heach : (Action.perform (Host.eachLine (Action.answer {} prompt))).result
      (w.write [.out prompt]) = (.ok stop.result?, w.write (.out prompt ::
        texts.flatMap fun text => exchange prompt text (reply text))) :=
    congrArg (fun r => (Except.ok r.1, r.2)) hlines
  unfold Action.converse
  rw [Action.result_bind, Action.result_say]
  dsimp only
  rw [Action.result_bind, heach]
  cases stop with
  | ended =>
      refine congrArg (Prod.mk _) ((World.note_eq_write _ _).trans ?_)
      rw [World.write_write]
      rfl
  | blank =>
      rw [transcript, if_neg nofun, List.append_nil]
      rfl
  | illegible =>
      rw [transcript, if_neg nofun, List.append_nil]
      rfl

end

/-! ## Outputs -/

/-- The filter that shows no record.  With it the error output has only what is written to
it. -/
def Log.Filter.silent : Log.Filter := ⟨[], ""⟩

namespace World

/-- What an event puts on the output. -/
def Event.outPart : Event → String
  | .out text => text
  | _ => ""

/-- What an event puts on the error output. -/
def Event.errPart : Event → String
  | .err text => text
  | _ => ""

theorem outText_eq (w : World) : w.outText = String.join (w.events.toList.map Event.outPart) := rfl

/-- With a silent filter the errors of the world are what its events put there. -/
theorem errText_silent (w : World) (coloured : Bool) :
    w.errText .silent coloured = String.join (w.events.toList.map Event.errPart) := by
  unfold errText
  congr 2
  funext e
  cases e <;> rfl

/-- The record that an event puts in the log. -/
def Event.record? : Event → Option Log.Record
  | .log r => some r
  | _ => none

/-- Later records are logged behind earlier ones. -/
theorem logged_write (w : World) (events : List Event) :
    (w.write events).logged.toList = w.logged.toList ++ events.filterMap Event.record? := by
  change ((w.events ++ events.toArray).filterMap Event.record?).toList =
    (w.events.filterMap Event.record?).toList ++ _
  simp

theorem outText_write (w : World) (events : List Event) :
    (w.write events).outText = w.outText ++ String.join (events.map Event.outPart) := by
  simp [outText_eq, write, String.join_append]

theorem errText_write (w : World) (events : List Event) (coloured : Bool) :
    (w.write events).errText .silent coloured =
      w.errText .silent coloured ++ String.join (events.map Event.errPart) := by
  simp [errText_silent, write, String.join_append]

end World

section

variable (prompt : String) (reply : String → Reply) (texts : List String)

/-- What the exchanges put on an output is what the replies and the prompts put there. -/
theorem join_exchanges {part : Event → String} (hlog : ∀ r, part (.log r) = "") :
    String.join ((texts.flatMap fun text => exchange prompt text (reply text)).map part) =
      String.join (texts.map fun text => part (reply text).event ++ part (.out prompt)) := by
  have hrecords (records : List Log.Record) :
      String.join (records.map (part ∘ Event.log)) = "" := by
    induction records with
    | nil => rfl
    | cons r records ih =>
        rw [List.map_cons, String.join_cons, ih, Function.comp, hlog]
        rfl
  induction texts with
  | nil => rfl
  | cons text texts ih =>
      rw [List.flatMap_cons, List.map_append, String.join_append, ih, List.map_cons,
        String.join_cons]
      simp [exchange, String.join_append, String.join_cons, hrecords]

/-- A prompt at the start and one behind each reply are one before each reply and one at the
end. -/
theorem join_prompts (out : String → String) :
    prompt ++ String.join (texts.map fun text => out text ++ prompt) =
      String.join (texts.map fun text => prompt ++ out text) ++ prompt := by
  induction texts with
  | nil => simp
  | cons text texts ih =>
      rw [List.map_cons, String.join_cons, List.map_cons, String.join_cons]
      simp only [String.append_assoc, ← ih]

/-- The output is a prompt and a reply for each text, then the prompt that was not answered. -/
theorem out_transcript (stop : Stop) :
    String.join ((transcript prompt reply texts stop).map Event.outPart) =
      String.join (texts.map fun text => prompt ++ (reply text).out) ++ prompt ++
        if stop = .ended then "\n" else "" := by
  have hreplies : (fun text => (reply text).event.outPart ++ (Event.out prompt).outPart) =
      fun text => (reply text).out ++ prompt := by
    funext text
    cases reply text <;> rfl
  have hfarewell : String.join ((if stop = .ended then [Event.out "\n"] else []).map
      Event.outPart) = if stop = .ended then "\n" else "" := by
    split <;> rfl
  rw [transcript, List.cons_append, List.map_cons, List.map_append, String.join_cons,
    String.join_append, join_exchanges _ _ _ (fun _ => rfl), hreplies, hfarewell, ← join_prompts,
    String.append_assoc]
  rfl

/-- The errors are those of the replies. -/
theorem err_transcript (stop : Stop) :
    String.join ((transcript prompt reply texts stop).map Event.errPart) =
      String.join (texts.map fun text => (reply text).err) := by
  have hreplies : (fun text => (reply text).event.errPart ++ (Event.out prompt).errPart) =
      fun text => (reply text).err := by
    funext text
    cases reply text
    · rfl
    · exact String.append_empty
  have hfarewell : String.join ((if stop = .ended then [Event.out "\n"] else []).map
      Event.errPart) = "" := by
    split <;> rfl
  rw [transcript, List.cons_append, List.map_cons, List.map_append, String.join_cons,
    String.join_append, join_exchanges _ _ _ (fun _ => rfl), hreplies, hfarewell,
    String.append_empty]
  exact String.empty_append

/-- The log is that of the evaluations, one after the other. -/
theorem records_transcript (stop : Stop) :
    (transcript prompt reply texts stop).filterMap Event.record? =
      texts.flatMap fun text => (evaluate {} {} text).log.toList := by
  have hexchange (text : String) : (exchange prompt text (reply text)).filterMap Event.record? =
      (evaluate {} {} text).log.toList := by
    have hevent : (reply text).event.record? = none := by cases reply text <;> rfl
    have hprompt : (Event.out prompt).record? = none := rfl
    have hlog : Event.record? ∘ Event.log = some := rfl
    rw [exchange, List.filterMap_append, List.filterMap_map, hlog]
    simp [hevent, hprompt]
  have hfarewell : (if stop = .ended then [Event.out "\n"] else []).filterMap
      Event.record? = [] := by
    split <;> rfl
  rw [transcript, List.cons_append, List.filterMap_cons, List.filterMap_append,
    List.filterMap_flatMap, hfarewell, List.append_nil]
  simp only [hexchange]
  rfl

end

/-- A conversation is a fold over the lines it hears.  The reply to a line is a function
of the line; it is one line, on the output if there is a value and else on the error
output.  A prompt stands before each reply and at the end, where a line end follows if the
input is over.  Nothing behind the end of the conversation is evaluated, and trouble comes
only from a line that is no text. -/
theorem conversation_is_fold :
    ∃ reply : String → Reply, (∀ text, Replies text (reply text)) ∧
      ∀ (prompt : String) (w : World), ∃ texts stop result w',
        heard (byteLines w.input) = (texts, stop) ∧
        (Action.converse {} prompt).result w = (result, w') ∧
        w'.outText = w.outText ++ (String.join (texts.map fun text => prompt ++ (reply text).out) ++
          prompt ++ if stop = .ended then "\n" else "") ∧
        (∀ coloured, w'.errText .silent coloured = w.errText .silent coloured ++
          String.join (texts.map fun text => (reply text).err)) ∧
        (∀ text ∈ texts, (reply text).OneLine) ∧
        w'.logged.toList = w.logged.toList ++
          texts.flatMap (fun text => (evaluate {} {} text).log.toList) ∧
        w'.files = w.files ∧
        ((∃ trouble, result = .error trouble) ↔ stop = .illegible) := by
  choose reply hreply using exists_replies
  refine ⟨reply, hreply, fun prompt w => ?_⟩
  rcases h : heard (byteLines w.input) with ⟨texts, stop⟩
  refine ⟨texts, stop, _, _, rfl, result_converse hreply prompt h, ?_, ?_, ?_, ?_, rfl, ?_⟩
  · rw [World.outText_write, out_transcript]
  · intro coloured
    rw [World.errText_write, err_transcript]
  · intro text htext
    have hmem : text ∈ (heard (byteLines w.input)).1 := by rwa [h]
    obtain ⟨line, hline, hdecoded⟩ := exists_line_of_mem_heard hmem
    exact (hreply text).oneLine (singleLine_of_mem_byteLines hline hdecoded)
  · rw [World.logged_write, records_transcript]
  · cases stop <;> simp [Stop.result?]

end Abacus
