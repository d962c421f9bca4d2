import SqlTables.Proofs.Cursor.Access
import SqlTables.Proofs.Token.Lexeme

/-!
# `SqlTables.Proofs.Cursor.Calls` — any use of a cursor is safe

A cursor can be asked for anything at any time: for a quoted text where no quote is, for the end of a
parenthesis that is not there, for the next token at the end of the text. Whatever the calls are, no access to
the text goes wrong, the cursor never moves back or out of the text, and at the end of the text it stays.

## Contents
- **`Call`**, **`Answer`** and **`Event`**: what is asked for, what is answered, and one of both.
- **`Cursor.perform`** and **`Cursor.run`**: calls to a cursor, and to the one with checked accesses.
- **`Event.Safe`**: what holds of every event, with `safe_perform`.
- **`run_safe`**: calls one after another.
-/

namespace SqlTables

/-! ## Calls -/

/-- What a cursor can be asked for. -/
inductive Call where
  | position
  | atEnd
  | peekByte
  | atComment
  | quote
  | skipComment
  | skipGap
  | skipQuoted
  | next
  | peek
  | closing (opening : Nat)
  | enclosed
  deriving DecidableEq

/-- What a cursor answers. -/
inductive Answer where
  | done
  | flag (value : Bool)
  | offset (i : Nat)
  | byte (b : Option UInt8)
  | quote (q : Option Quote)
  | token (t : Option Token)
  | bytes (bs : Bytes)
  deriving DecidableEq

/-- A call to a cursor, with what it answered and where it was left. -/
structure Event where
  before : Cursor
  call : Call
  answer : Answer
  after : Cursor
  deriving DecidableEq

/-- The bytes of the text that a token holds. -/
def Token.held : Token → Bytes
  | .word text => text
  | .quoted _ content => content
  | .punct b => [b]

namespace Answer

/-- The bytes of the text that an answer holds. -/
def held : Answer → Bytes
  | byte b => b.toList
  | quote q => (q.map Quote.byte).toList
  | token (some t) => t.held
  | bytes bs => bs
  | _ => []

/-- An answer that holds nothing of the text. -/
def Blank : Answer → Prop
  | byte b => b = none
  | quote q => q = none
  | token t => t = none
  | bytes bs => bs = []
  | _ => True

end Answer

namespace Cursor

variable {c : Cursor} {call : Call} {answer : Answer} {rest : Bytes}

/-- The answer to a call, and the cursor behind it. -/
def perform (c : Cursor) : Call → Answer × Cursor
  | .position => (.offset c.position, c)
  | .atEnd => (.flag c.atEnd, c)
  | .peekByte => (.byte c.peekByte?, c)
  | .atComment => (.flag c.atComment, c)
  | .quote => (.quote c.quote?, c)
  | .skipComment => (.flag c.skipComment.1, c.skipComment.2)
  | .skipGap => (.done, c.skipGap)
  | .skipQuoted => (.bytes c.skipQuoted.1, c.skipQuoted.2)
  | .next => (.token c.next.1, c.next.2)
  | .peek => (.token c.peek, c)
  | .closing opening => (.offset (c.closing opening), c)
  | .enclosed => (.bytes c.enclosed.1, c.enclosed.2)

/-- The same with checked accesses. -/
def performChecked (c : Cursor) : Call → Except Fault (Answer × Cursor)
  | .position => return (.offset c.position, c)
  | .atEnd => return (.flag c.atEnd, c)
  | .peekByte => return (.byte c.peekByte?, c)
  | .atComment => return (.flag (Access.startsComment c.text c.position), c)
  | .quote => return (.quote c.quote?, c)
  | .skipComment => do
      let (found, i) ← Access.skipComment c.text c.position
      return (.flag found, ⟨c.text, i⟩)
  | .skipGap => do return (.done, ⟨c.text, ← Access.skipGap c.text c.position⟩)
  | .skipQuoted => do
      let (content, i) ← Access.skipQuoted c.text c.position
      return (.bytes content, ⟨c.text, i⟩)
  | .next => do
      let (t, i) ← Access.next c.text c.position
      return (.token t, ⟨c.text, i⟩)
  | .peek => do
      let (t, _) ← Access.next c.text c.position
      return (.token t, c)
  | .closing opening => do return (.offset (← Access.closing c.text opening), c)
  | .enclosed => do
      let (body, i) ← Access.enclosed c.text c.position
      return (.bytes body, ⟨c.text, i⟩)

/-- What happens when a cursor gets calls one after another. -/
def run (c : Cursor) : List Call → List Event
  | [] => []
  | call :: calls =>
      let (answer, after) := c.perform call
      ⟨c, call, answer, after⟩ :: after.run calls

/-- The same with checked accesses. -/
def runChecked (c : Cursor) : List Call → Except Fault (List Event)
  | [] => return []
  | call :: calls => do
      let (answer, after) ← c.performChecked call
      return ⟨c, call, answer, after⟩ :: (← after.runChecked calls)

/-! ## Checked accesses -/

/-- The checked routine agrees with the cursor, also away from a quote. -/
theorem skipQuoted_checked (h : c.position ≤ c.text.length) :
    Access.skipQuoted c.text c.position = .ok (c.skipQuoted.1, c.skipQuoted.2.position) := by
  unfold skipQuoted
  cases hq : c.quote? with
  | none => exact Access.skipQuoted_none hq
  | some q =>
      obtain ⟨b, hb, hbyte⟩ := Option.bind_eq_some_iff.mp hq
      rw [peekByte?_eq_head?, List.head?_eq_some_iff] at hb
      obtain ⟨tail, hrest⟩ := hb
      have hsuffix : b :: tail <:+ c.text := hrest ▸ c.rest_suffix
      rw [← offset_rest h, hrest, Access.skipQuoted_offset hsuffix hbyte]
      rfl

/-- It agrees on the next token. -/
theorem next_checked (h : c.position ≤ c.text.length) :
    Access.next c.text c.position = .ok (c.next.1, c.next.2.position) := by
  have hnext := Access.next_offset c.rest_suffix
  rw [offset_rest h] at hnext
  rw [hnext]
  unfold next
  cases c.rest.nextToken? with
  | none => rfl
  | some r => rfl

theorem skipQuoted_text (c : Cursor) : c.skipQuoted.2.text = c.text := by
  unfold skipQuoted
  cases c.quote? with
  | none => rfl
  | some q => rfl

theorem next_text (c : Cursor) : c.next.2.text = c.text := by
  unfold next
  cases c.rest.nextToken? with
  | none => rfl
  | some r => rfl

/-- From within the text no call makes an access that goes wrong. -/
theorem performChecked_eq (h : c.position ≤ c.text.length) (call : Call) :
    c.performChecked call = .ok (c.perform call) := by
  cases call with
  | atComment =>
      have hstart := Access.startsComment_offset c.rest_suffix
      rw [offset_rest h] at hstart
      rw [performChecked, hstart]
      rfl
  | skipComment =>
      rw [performChecked, perform]
      unfold skipComment
      cases hafter : afterComment? c.rest with
      | none =>
          have hskip := Access.skipComment_offset_of_none c.rest_suffix hafter
          rw [offset_rest h] at hskip
          rw [hskip]
          rfl
      | some rest =>
          have hskip := Access.skipComment_offset c.rest_suffix hafter
          rw [offset_rest h] at hskip
          rw [hskip]
          rfl
  | skipGap =>
      have hskip := Access.skipGap_offset c.rest_suffix
      rw [offset_rest h] at hskip
      rw [performChecked, hskip]
      rfl
  | skipQuoted =>
      rw [performChecked, skipQuoted_checked h, perform]
      rw [← skipQuoted_text c]
      rfl
  | next =>
      rw [performChecked, next_checked h, perform]
      rw [← next_text c]
      rfl
  | peek =>
      rw [performChecked, next_checked h]
      rfl
  | closing opening =>
      rw [performChecked, Access.closing_eq]
      rfl
  | enclosed =>
      rw [performChecked, Access.enclosed_eq]
      rfl
  -- The other calls make no access to the text.
  | _ => rfl

end Cursor

/-! ## Safe events -/

/-- What holds of every call to a cursor in a text. -/
structure Event.Safe (text : Bytes) (e : Event) : Prop where
  before_text : e.before.text = text
  after_text : e.after.text = text
  forward : e.before.position ≤ e.after.position
  inside : e.after.position ≤ text.length
  held_infix : e.answer.held <:+: text
  at_end : e.before.atEnd = true → e.after = e.before ∧ e.answer.Blank

/-- Where a later event starts: no earlier in the text, and at the end of the text in the same place. -/
def Event.Precedes (e e' : Event) : Prop :=
  e.after.position ≤ e'.before.position ∧ (e.after.atEnd = true → e'.before = e.after)

/-- A token holds bytes that it is written with. -/
theorem held_lexeme {t : Token} {lexeme rest : Bytes} (h : Lexeme t lexeme rest) : t.held <:+: lexeme := by
  cases h with
  | word => exact List.infix_rfl
  | @quoted q content _ _ _ => exact ⟨[q.byte], [q.byte], rfl⟩
  | openQuoted => exact (List.suffix_cons _ _).isInfix
  | punct => exact List.infix_rfl

namespace Cursor

variable {c : Cursor} {call : Call} {answer : Answer} {rest : Bytes}

/-- The byte at a cursor is one of the text. -/
theorem held_peekByte (c : Cursor) : (Answer.byte c.peekByte?).held <:+: c.text := by
  rw [peekByte?_eq_head?]
  cases h : c.rest.head? with
  | none => exact List.nil_infix
  | some b =>
      obtain ⟨tail, hrest⟩ := List.head?_eq_some_iff.mp h
      have hin : [b] <:+: c.rest := ⟨[], tail, by rw [hrest]; rfl⟩
      exact hin.trans c.rest_suffix.isInfix

/-- So is the quote. -/
theorem held_quote (c : Cursor) : (Answer.quote c.quote?).held <:+: c.text := by
  cases h : c.quote? with
  | none => exact List.nil_infix
  | some q =>
      obtain ⟨b, hb, hq⟩ := Option.bind_eq_some_iff.mp h
      have hheld := held_peekByte c
      rw [hb] at hheld
      obtain rfl := Quote.byte_of_ofByte? hq
      exact hheld

/-- The bytes of a token stand in the text one after another. -/
theorem held_next (c : Cursor) : (Answer.token c.next.1).held <:+: c.text := by
  unfold next
  cases h : c.rest.nextToken? with
  | none => exact List.nil_infix
  | some r =>
      obtain ⟨t, rest⟩ := r
      obtain ⟨gap, lexeme, hsplit, -, -, hlexeme⟩ := nextToken?_eq_some_iff.mp h
      have hin : lexeme <:+: c.rest := ⟨gap, rest, by rw [hsplit, List.append_assoc]⟩
      exact ((held_lexeme hlexeme).trans hin).trans c.rest_suffix.isInfix

theorem moveTo_rest (h : c.position ≤ c.text.length) : c.moveTo c.rest = c := by
  show (⟨c.text, offset c.text c.rest⟩ : Cursor) = c
  rw [offset_rest h]

/-- A call that leaves the cursor in front of an end of what it had in front of it. -/
theorem safe_moveTo (h : c.position ≤ c.text.length) (hrest : rest <:+ c.rest)
    (hheld : answer.held <:+: c.text) (hblank : c.rest = [] → answer.Blank) :
    Event.Safe c.text ⟨c, call, answer, c.moveTo rest⟩ where
  before_text := rfl
  after_text := rfl
  forward := by
    have hle := Nat.sub_le_sub_left hrest.length_le c.text.length
    rw [← offset, offset_rest h] at hle
    exact hle
  inside := Nat.sub_le _ _
  held_infix := hheld
  at_end := by
    intro hend
    have hnil := atEnd_iff.mp hend
    rw [hnil, List.suffix_nil] at hrest
    have hstay := moveTo_rest h
    rw [hnil] at hstay
    rw [hrest]
    exact ⟨hstay, hblank hnil⟩

/-- A call that leaves the cursor where it is. -/
theorem safe_stay (h : c.position ≤ c.text.length) (hheld : answer.held <:+: c.text)
    (hblank : c.rest = [] → answer.Blank) : Event.Safe c.text ⟨c, call, answer, c⟩ := by
  have hsafe : Event.Safe c.text ⟨c, call, answer, c.moveTo c.rest⟩ :=
    safe_moveTo h List.suffix_rfl hheld hblank
  rwa [moveTo_rest h] at hsafe

/-- Skipping a comment moves behind it, or not at all. -/
theorem safe_skipComment (h : c.position ≤ c.text.length) :
    Event.Safe c.text ⟨c, .skipComment, .flag c.skipComment.1, c.skipComment.2⟩ := by
  unfold skipComment
  cases hafter : afterComment? c.rest with
  | none => exact safe_stay h List.nil_infix (fun _ => trivial)
  | some rest =>
      exact safe_moveTo h (afterComment?_suffix hafter) List.nil_infix (fun _ => trivial)

theorem quote?_of_rest_nil (h : c.rest = []) : c.quote? = none := by
  rw [quote?, peekByte?_eq_head?, h]
  rfl

/-- Skipping quoted text answers a part of it. -/
theorem safe_skipQuoted (h : c.position ≤ c.text.length) :
    Event.Safe c.text ⟨c, .skipQuoted, .bytes c.skipQuoted.1, c.skipQuoted.2⟩ := by
  unfold skipQuoted
  cases hq : c.quote? with
  | none => exact safe_stay h List.nil_infix (fun _ => rfl)
  | some q =>
      have hdrop : c.rest.drop 1 <:+ c.rest := List.drop_suffix 1 c.rest
      apply safe_moveTo h
      · exact (Quote.split_rest_suffix q _).trans hdrop
      · exact (split_prefix_text q _).isInfix.trans (hdrop.trans c.rest_suffix).isInfix
      · intro hnil
        rw [quote?_of_rest_nil hnil] at hq
        cases hq

theorem next_of_rest_nil (h : c.rest = []) : c.next = (none, c.moveTo []) := by
  rw [next_eq_none_iff, h]
  exact ⟨nextToken?_eq_none_iff.mpr (.nil []), rfl⟩

/-- Reading a token moves behind it, and to the end where there is none. -/
theorem safe_next (h : c.position ≤ c.text.length) :
    Event.Safe c.text ⟨c, .next, .token c.next.1, c.next.2⟩ := by
  have hheld := held_next c
  unfold next at hheld ⊢
  cases hnext : c.rest.nextToken? with
  | none =>
      rw [hnext] at hheld
      exact safe_moveTo h List.nil_suffix hheld (fun _ => rfl)
  | some r =>
      obtain ⟨t, rest⟩ := r
      rw [hnext] at hheld
      apply safe_moveTo h _ hheld
      · intro hnil
        rw [hnil, nextToken?_eq_none_iff.mpr (.nil [])] at hnext
        cases hnext
      · obtain ⟨gap, lexeme, hsplit, -⟩ := nextToken?_eq_some_iff.mp hnext
        rw [hsplit, ← List.append_assoc]
        exact List.suffix_append _ rest

/-- Cutting out a span answers a part of the text and moves behind its end. -/
theorem safe_enclosed (h : c.position ≤ c.text.length) :
    Event.Safe c.text ⟨c, .enclosed, .bytes c.enclosed.1, c.enclosed.2⟩ := by
  have hfrom := fromClosing_suffix 0 (c.text.drop (c.position - 1 + 1))
  have hdrop : c.text.drop (c.position - 1 + 1) <:+ c.rest :=
    List.drop_suffix_drop_left c.text (by omega)
  have hclose : c.closing (c.position - 1) ≤ c.text.length := Nat.sub_le _ _
  -- The call moves behind the end of the span, or to the end of the text if there is none.
  have hbehind : c.enclosed.2 =
      c.moveTo ((fromClosing 0 (c.text.drop (c.position - 1 + 1))).drop 1) := by
    have hle := (hfrom.trans (hdrop.trans c.rest_suffix)).length_le
    rw [enclosed, moveTo, Cursor.mk.injEq, closing, List.length_drop]
    refine ⟨rfl, ?_⟩
    omega
  rw [hbehind]
  apply safe_moveTo h
  · exact (List.drop_suffix 1 _).trans (hfrom.trans hdrop)
  · exact (List.drop_suffix _ _).isInfix.trans (List.take_prefix _ _).isInfix
  · -- At the end of the text the span ends where it starts.
    intro hnil
    have hend : c.text.length ≤ c.position := List.drop_eq_nil_iff.mp hnil
    show (c.text.take (c.closing (c.position - 1))).drop _ = []
    rw [List.drop_eq_nil_iff, List.length_take]
    omega

/-- Within the text every call is safe. -/
theorem safe_perform (h : c.position ≤ c.text.length) (call : Call) :
    Event.Safe c.text ⟨c, call, (c.perform call).1, (c.perform call).2⟩ := by
  cases call with
  | position => exact safe_stay h List.nil_infix (fun _ => trivial)
  | atEnd => exact safe_stay h List.nil_infix (fun _ => trivial)
  | peekByte =>
      apply safe_stay h (held_peekByte c)
      intro hnil
      rw [peekByte?_eq_head?, hnil]
      rfl
  | atComment => exact safe_stay h List.nil_infix (fun _ => trivial)
  | quote => exact safe_stay h (held_quote c) quote?_of_rest_nil
  | skipComment => exact safe_skipComment h
  | skipGap => exact safe_moveTo h (skipGap_suffix c.rest) List.nil_infix (fun _ => trivial)
  | skipQuoted => exact safe_skipQuoted h
  | next => exact safe_next h
  | peek =>
      apply safe_stay h (held_next c)
      intro hnil
      exact congrArg Prod.fst (next_of_rest_nil hnil)
  | closing opening => exact safe_stay h List.nil_infix (fun _ => trivial)
  | enclosed => exact safe_enclosed h

/-! ## Calls one after another -/

theorem run_cons (c : Cursor) (call : Call) (calls : List Call) :
    c.run (call :: calls) =
      ⟨c, call, (c.perform call).1, (c.perform call).2⟩ :: (c.perform call).2.run calls := rfl

/-- A run of calls is the first one and the run of the others from where it left the cursor. -/
theorem runChecked_cons {r : Answer × Cursor} (h : c.performChecked call = .ok r)
    (calls : List Call) :
    c.runChecked (call :: calls) = (r.2.runChecked calls).map (⟨c, call, r.1, r.2⟩ :: ·) := by
  rw [runChecked, h]
  simp only [Access.ok_bind]
  cases r.2.runChecked calls with
  | error fault => rfl
  | ok events => rfl

/-- Whatever calls come, no access goes wrong, every event is safe, and none goes back behind the cursor. -/
theorem run_of_le (h : c.position ≤ c.text.length) (calls : List Call) :
    c.runChecked calls = .ok (c.run calls) ∧
      (∀ e ∈ c.run calls, e.Safe c.text ∧ c.position ≤ e.before.position ∧
        (c.atEnd = true → e.before = c)) ∧
      (c.run calls).Pairwise Event.Precedes := by
  -- On the calls: the cursor is in the text again behind the first one.
  induction calls generalizing c with
  | nil =>
      refine ⟨rfl, ?_, .nil⟩
      intro e he
      cases he
  | cons call calls ih =>
      have hsafe := safe_perform h call
      have htext : (c.perform call).2.text = c.text := hsafe.after_text
      have hafter : (c.perform call).2.position ≤ (c.perform call).2.text.length := by
        rw [htext]
        exact hsafe.inside
      obtain ⟨hchecked, hevents, hpairs⟩ := ih hafter
      refine ⟨?_, ?_, ?_⟩
      · rw [runChecked_cons (performChecked_eq h call), hchecked]
        rfl
      · intro e he
        rcases List.mem_cons.mp he with rfl | he
        · exact ⟨hsafe, Nat.le_refl _, fun _ => rfl⟩
        · obtain ⟨hsafe', hforward, hend⟩ := hevents e he
          rw [htext] at hsafe'
          refine ⟨hsafe', Nat.le_trans hsafe.forward hforward, ?_⟩
          intro hatEnd
          -- A cursor at the end stays there, so the later calls find it where it was.
          obtain ⟨hstay, -⟩ := hsafe.at_end hatEnd
          simp only at hstay
          rw [hstay] at hend
          exact hend hatEnd
      · rw [run_cons]
        apply List.Pairwise.cons _ hpairs
        intro e he
        obtain ⟨-, hforward, hend⟩ := hevents e he
        exact ⟨hforward, hend⟩

/-- **Any use of a cursor is safe.** Whatever calls come one after another to a cursor that starts at the
    front of a text, no access to the text goes wrong, what is answered is part of the text, and the cursor
    moves neither back nor out of the text. At the end of the text it stays, and has nothing more to answer. -/
theorem run_safe (text : Bytes) (calls : List Call) :
    (start text).runChecked calls = .ok ((start text).run calls) ∧
      (∀ e ∈ (start text).run calls, e.Safe text) ∧
      ((start text).run calls).Pairwise Event.Precedes := by
  obtain ⟨hchecked, hevents, hpairs⟩ := run_of_le (c := start text) (Nat.zero_le _) calls
  refine ⟨hchecked, ?_, hpairs⟩
  intro e he
  exact (hevents e he).1

/-- Away from a quote, in front of the text, behind it and at its end. The search for the end of the quoted
    text goes on behind the backslash, where there is no byte. -/
theorem run_safe_backslash :
    let c := start (ascii "x'a\\")
    let calls := [.skipQuoted, .closing 40, .next, .next, .atEnd, .enclosed, .skipQuoted, .next]
    (∃ events, c.runChecked calls = .ok events ∧ events.map Event.answer =
        [.bytes [], .offset 4, .token (some (.word (ascii "x"))),
          .token (some (.quoted .single (ascii "a\\"))), .flag true, .bytes [], .bytes [], .token none]) ∧
      (start (ascii "a)b")).runChecked [.enclosed] =
        .ok [⟨start (ascii "a)b"), .enclosed, .bytes (ascii "a"), ⟨ascii "a)b", 2⟩⟩] := by
  intro c calls
  constructor
  · refine ⟨c.run calls, (run_safe c.text calls).1, ?_⟩
    decide +kernel
  · rw [(run_safe (ascii "a)b") [.enclosed]).1]
    decide +kernel

end Cursor

end SqlTables
