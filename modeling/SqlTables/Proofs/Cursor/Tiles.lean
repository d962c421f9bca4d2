import SqlTables.Proofs.Cursor
import SqlTables.Proofs.Token.Lexeme

/-!
# `SqlTables.Proofs.Cursor.Tiles` — tokens and gaps tile the text

A cursor that reads token by token cuts the whole text into gaps and lexemes, and there is only one way to cut
it. Nothing is lost or read twice: behind each token the cursor stands where its lexeme ends.

## Contents
- **`Tile`**, **`written`** and **`Tiles`**: a text that is cut into gaps and lexemes.
- **`exists_tiles`** and **`tiles_unique`**: the one way to cut a text.
- **`Cursor.behind`**: the cursor behind some tokens, with `next_of_tiles`.
- **`next_tiles`**: what reading token by token comes to.
-/

namespace SqlTables

/-! ## Tiles -/

/-- A gap and the token behind it, as they are written. -/
@[ext]
structure Tile where
  gap : Bytes
  token : Token
  lexeme : Bytes

/-- Tiles, and a gap behind the last one. -/
def written : List Tile → Bytes → Bytes
  | [], last => last
  | tile :: tiles, last => tile.gap ++ (tile.lexeme ++ written tiles last)

/-- Tiles behind `before` and the gap behind them. Each lexeme starts where the gap in front of it ends, and a
    word goes on neither to its back nor to its front. -/
inductive Tiles : Bytes → List Tile → Bytes → Prop where
  | last (before : Bytes) {last : Bytes} : Gap last [] → Tiles before [] last
  | tile {before gap lexeme last : Bytes} {t : Token} {tiles : List Tile} :
      Gap gap (lexeme ++ written tiles last) → Significant (lexeme ++ written tiles last) →
        Lexeme t lexeme (written tiles last) →
        (∀ text b, t = .word text → (before ++ gap).getLast? = some b → isWordByte b = false) →
        Tiles (before ++ (gap ++ lexeme)) tiles last → Tiles before (⟨gap, t, lexeme⟩ :: tiles) last

variable {before bs gap lexeme last rest : Bytes} {b : UInt8} {t : Token} {tiles : List Tile}

/-! ## One way to cut a text -/

/-- No word goes on from one text into the next. -/
def WordsApart (before rest : Bytes) : Prop :=
  ∀ a b, before.getLast? = some a → rest.head? = some b → isWordByte a = true → isWordByte b = false

/-- Behind a lexeme no word goes on: the bytes of a word are all taken by it, and other lexemes do not end
    with such a byte. -/
theorem apart_lexeme (h : Lexeme t lexeme rest) (before : Bytes) : WordsApart (before ++ lexeme) rest := by
  intro a b ha hb hword
  rw [List.getLast?_append] at ha
  cases h with
  | word _ _ hrest => exact hrest b hb
  | @quoted q content rest _ _ =>
      have hbyte : isWordByte q.byte = false := by cases q <;> decide
      have hlast : (q.byte :: (content ++ [q.byte])).getLast? = some q.byte := by
        rw [← List.cons_append, List.getLast?_concat]
      rw [hlast, Option.some_or, Option.some.injEq] at ha
      rw [← ha, hbyte] at hword
      cases hword
  | openQuoted => cases hb
  | @punct c rest _ hc _ _ =>
      rw [List.getLast?_singleton, Option.some_or, Option.some.injEq] at ha
      rw [← ha, hc] at hword
      cases hword

theorem isWordByte_of_isSeparator (h : isSeparator b = true) : isWordByte b = false := by
  rw [← Bool.not_eq_true]
  intro hb
  rw [isSeparator_of_isWordByte hb] at h
  cases h

/-- A comment with something behind it ends in a line end or in a slash. -/
theorem getLast?_comment {comment : Bytes} (h : Comment comment rest) (hrest : rest ≠ [])
    (hlast : comment.getLast? = some b) : isWordByte b = false := by
  cases h with
  | @line mark body =>
      have hend : (mark ++ (body ++ ascii "\n")).getLast? = some '\n'.toUInt8 := by
        simp [ascii, ← List.append_assoc]
      rw [hend] at hlast
      cases hlast
      decide
  | @block body =>
      have hend : (ascii "/*" ++ (body ++ ascii "*/")).getLast? = some '/'.toUInt8 := by
        rw [List.getLast?_append, List.getLast?_append]
        rfl
      rw [hend] at hlast
      cases hlast
      decide
  | openLine => exact absurd rfl hrest
  | openBlock => exact absurd rfl hrest

/-- A gap with a token behind it does not end with a byte of a word. -/
theorem getLast?_gap (h : Gap gap rest) (hrest : rest ≠ []) (hlast : gap.getLast? = some b) :
    isWordByte b = false := by
  -- On the row of parts: the last byte belongs to the last part that is not empty.
  induction h with
  | nil => cases hlast
  | @separator c gap rest hc _ ih =>
      rw [List.getLast?_cons] at hlast
      cases hg : gap.getLast? with
      | none =>
          rw [hg] at hlast
          cases hlast
          exact isWordByte_of_isSeparator hc
      | some d =>
          rw [hg] at hlast
          cases hlast
          exact ih hrest hg
  | @comment comment gap rest hcomment _ ih =>
      rw [List.getLast?_append] at hlast
      cases hg : gap.getLast? with
      | none =>
          rw [hg, Option.none_or] at hlast
          have hne : gap ++ rest ≠ [] := by simp [hrest]
          exact getLast?_comment hcomment hne hlast
      | some d =>
          rw [hg, Option.some_or] at hlast
          cases hlast
          exact ih hrest hg

/-- In front of a word stands the end of a gap, of another token or nothing at all. -/
theorem apart_gap (h : Gap gap (lexeme ++ rest)) (hlexeme : Lexeme t lexeme rest)
    (hapart : WordsApart before (gap ++ (lexeme ++ rest))) (text : Bytes) (ht : t = .word text)
    (hlast : (before ++ gap).getLast? = some b) : isWordByte b = false := by
  have hne : lexeme ++ rest ≠ [] := by simp [lexeme_ne_nil hlexeme]
  rw [List.getLast?_append] at hlast
  cases hg : gap.getLast? with
  | some c =>
      rw [hg, Option.some_or] at hlast
      cases hlast
      exact getLast?_gap h hne hg
  | none =>
      rw [hg, Option.none_or] at hlast
      obtain rfl := List.getLast?_eq_none_iff.mp hg
      subst ht
      cases hlexeme with
      | word hword hall _ =>
          obtain ⟨c, tail, rfl⟩ := List.exists_cons_of_ne_nil hword
          rw [← Bool.not_eq_true]
          intro hb
          -- Two words that meet would be one.
          have hc := hapart b c hlast rfl hb
          rw [hall c List.mem_cons_self] at hc
          cases hc

/-- Reading tokens one after another cuts the text into tiles. -/
theorem exists_tiles (before bs : Bytes) (hapart : WordsApart before bs) :
    ∃ tiles last, written tiles last = bs ∧ Tiles before tiles last := by
  fun_induction Bytes.tokens bs generalizing before with
  | case2 bs h => exact ⟨[], bs, rfl, .last before (nextToken?_eq_none_iff.mp h)⟩
  | case1 bs t rest h ih =>
      obtain ⟨gap, lexeme, rfl, hgap, hstart, hlexeme⟩ := nextToken?_eq_some_iff.mp h
      have hnext : WordsApart (before ++ (gap ++ lexeme)) rest := by
        rw [← List.append_assoc]
        exact apart_lexeme hlexeme _
      obtain ⟨tiles, last, rfl, htiles⟩ := ih _ hnext
      refine ⟨⟨gap, t, lexeme⟩ :: tiles, last, rfl, .tile hgap hstart hlexeme ?_ htiles⟩
      intro text b ht hlast
      exact apart_gap hgap hlexeme hapart text ht hlast

theorem nextToken?_of_last (h : Tiles before [] last) : last.nextToken? = none := by
  cases h with
  | last _ hlast => exact nextToken?_eq_none_iff.mpr hlast

/-- The first tile is what is read first. -/
theorem nextToken?_of_tile {tile : Tile} (h : Tiles before (tile :: tiles) last) :
    skipGap (written (tile :: tiles) last) = tile.lexeme ++ written tiles last ∧
      Bytes.nextToken? (written (tile :: tiles) last) = some (tile.token, written tiles last) ∧
      Tiles (before ++ (tile.gap ++ tile.lexeme)) tiles last := by
  cases h with
  | tile hgap hstart hlexeme _ htiles =>
      have hskip := skipGap_gap hgap hstart
      exact ⟨hskip, nextToken?_lexeme hskip hlexeme, htiles⟩

/-- There is only one way to cut a text into tiles. -/
theorem tiles_unique {before' last' : Bytes} {tiles' : List Tile} (h : Tiles before tiles last)
    (h' : Tiles before' tiles' last') (hsame : written tiles last = written tiles' last') :
    tiles = tiles' ∧ last = last' := by
  induction tiles generalizing before before' tiles' with
  | nil =>
      have hnone := nextToken?_of_last h
      cases tiles' with
      | nil => exact ⟨rfl, hsame⟩
      | cons tile' tiles' =>
          obtain ⟨-, hsome, -⟩ := nextToken?_of_tile h'
          rw [← hsame] at hsome
          cases hnone.symm.trans hsome
  | cons tile tiles ih =>
      obtain ⟨hskip, hsome, htiles⟩ := nextToken?_of_tile h
      cases tiles' with
      | nil =>
          have hnone := nextToken?_of_last h'
          rw [hsame] at hsome
          cases hnone.symm.trans hsome
      | cons tile' tiles' =>
          obtain ⟨hskip', hsome', htiles'⟩ := nextToken?_of_tile h'
          rw [hsame] at hskip hsome
          obtain ⟨htoken, hrest⟩ := Prod.mk.inj (Option.some.inj (hsome.symm.trans hsome'))
          -- The same text is left, so the lexemes are equal, and then the gaps are.
          have hlexeme : tile.lexeme = tile'.lexeme := by
            have hcut := hskip.symm.trans hskip'
            rw [hrest] at hcut
            exact List.append_cancel_right hcut
          have hgap : tile.gap = tile'.gap := by
            rw [written, written, hrest, hlexeme] at hsame
            exact List.append_cancel_right hsame
          obtain ⟨rfl, hlast⟩ := ih htiles htiles' hrest
          exact ⟨congrArg (· :: tiles) (Tile.ext hgap htoken hlexeme), hlast⟩

/-! ## Reading token by token -/

namespace Cursor

/-- The cursor behind the next tokens, as many as are asked for. -/
def behind (c : Cursor) : Nat → Cursor
  | 0 => c
  | n + 1 => c.next.2.behind n

/-- At the end of the text the cursor stays, however often it is asked for a token. -/
theorem next_behind_of_none {c : Cursor} (h : c.rest.nextToken? = none) (n : Nat) :
    (c.behind n).next = (none, c.behind (n + 1)) ∧ (c.behind (n + 1)).position = c.text.length := by
  have hnext : c.next = (none, c.moveTo []) := next_eq_none_iff.mpr ⟨h, rfl⟩
  induction n generalizing c with
  | zero =>
      show c.next = (none, c.next.2) ∧ c.next.2.position = c.text.length
      rw [hnext]
      exact ⟨rfl, rfl⟩
  | succ n ih =>
      have hend : (c.moveTo []).rest = [] := rest_moveTo List.nil_suffix
      have hstay : (c.moveTo []).rest.nextToken? = none := by
        rw [hend]
        exact nextToken?_eq_none_iff.mpr (.nil [])
      show (c.next.2.behind n).next = (none, c.next.2.behind (n + 1)) ∧
        (c.next.2.behind (n + 1)).position = c.text.length
      rw [hnext]
      exact ih hstay (next_eq_none_iff.mpr ⟨hstay, rfl⟩)

/-- A cursor in front of tiles reads them one after another. -/
theorem next_of_tiles {c : Cursor} (h : Tiles before tiles last)
    (htext : c.text = before ++ written tiles last) (hposition : c.position = before.length) :
    (∀ n (hn : n < tiles.length),
        (c.behind n).next = (some tiles[n].token, c.behind (n + 1)) ∧
        (c.behind n).position < (c.behind (n + 1)).position ∧
        (c.behind (n + 1)).position = before.length + (written (tiles.take (n + 1)) []).length) ∧
      ∀ n, tiles.length ≤ n →
        (c.behind n).next = (none, c.behind (n + 1)) ∧
        (c.behind (n + 1)).position = c.text.length := by
  have hrest : c.rest = written tiles last := by
    rw [rest, htext, hposition, List.drop_left]
  -- On the tiles: the cursor moves behind the first one, which then belongs to what is written before.
  induction tiles generalizing before c with
  | nil =>
      have hnone : c.rest.nextToken? = none := by
        rw [hrest]
        exact nextToken?_of_last h
      refine ⟨?_, fun n _ => next_behind_of_none hnone n⟩
      intro n hn
      exact absurd hn (Nat.not_lt_zero n)
  | cons tile tiles ih =>
      obtain ⟨-, hsome, htiles⟩ := nextToken?_of_tile h
      have hlength := length_lt_of_nextToken? hsome
      rw [← hrest] at hsome
      have hnext : c.next = (some tile.token, c.moveTo (written tiles last)) :=
        next_eq_some_iff.mpr ⟨_, hsome, rfl⟩
      have htext' : c.text = before ++ (tile.gap ++ tile.lexeme) ++ written tiles last := by
        rw [htext, written]
        simp only [List.append_assoc]
      have hmove : (c.moveTo (written tiles last)).position =
          (before ++ (tile.gap ++ tile.lexeme)).length := by
        show offset c.text (written tiles last) = _
        rw [offset, htext', List.length_append, Nat.add_sub_cancel]
      obtain ⟨hreads, hends⟩ := ih (c := c.moveTo (written tiles last)) htiles htext' hmove
        (rest_moveTo ⟨_, htext'.symm⟩)
      -- The cursor after `n + 1` calls is the moved cursor after `n` calls.
      have hbehind (n : Nat) : c.behind (n + 1) = (c.moveTo (written tiles last)).behind n := by
        rw [behind, hnext]
      constructor
      · intro n hn
        rw [hbehind]
        cases n with
        | zero =>
            refine ⟨hnext, ?_, ?_⟩
            · show c.position < (c.moveTo (written tiles last)).position
              rw [hmove, hposition, List.length_append]
              simp only [written, List.length_append] at hlength ⊢
              omega
            · show (c.moveTo (written tiles last)).position = _
              simp [hmove, written]
        | succ n =>
            obtain ⟨hread, hforward, hend⟩ := hreads n (Nat.lt_of_succ_lt_succ hn)
            rw [hbehind]
            refine ⟨hread, hforward, ?_⟩
            rw [hend]
            simp only [List.take_succ_cons, written, List.length_append]
            omega
      · intro n hn
        cases n with
        | zero => exact absurd hn (Nat.not_succ_le_zero _)
        | succ n =>
            rw [hbehind, hbehind]
            exact hends n (Nat.le_of_succ_le_succ hn)

/-- **Tokens and gaps tile the text.** Asking for tokens until there is none cuts every text into gaps and
    lexemes, in the only way there is. Behind each token the cursor has moved on and stands where its lexeme
    ends; where no token is left it stands at the end of the text, and stays there however often it is
    asked. -/
theorem next_tiles (text : Bytes) :
    let c := Cursor.start text
    ∃ tiles last,
      (written tiles last = text ∧ Tiles [] tiles last ∧
        ∀ tiles' last', written tiles' last' = text → Tiles [] tiles' last' →
          tiles' = tiles ∧ last' = last) ∧
      (∀ n (hn : n < tiles.length),
        (c.behind n).next = (some tiles[n].token, c.behind (n + 1)) ∧
        (c.behind n).position < (c.behind (n + 1)).position ∧
        (c.behind (n + 1)).position = (written (tiles.take (n + 1)) []).length) ∧
      ∀ n, tiles.length ≤ n →
        (c.behind n).next = (none, c.behind (n + 1)) ∧ (c.behind (n + 1)).position = text.length := by
  intro c
  -- Nothing stands in front of the text that a first word could go on with.
  have hapart : WordsApart [] text := by
    intro a b ha
    cases ha
  obtain ⟨tiles, last, hwritten, htiles⟩ := exists_tiles [] text hapart
  obtain ⟨hreads, hends⟩ := next_of_tiles (c := c) htiles hwritten.symm rfl
  refine ⟨tiles, last, ⟨hwritten, htiles, ?_⟩, ?_, hends⟩
  · intro tiles' last' hwritten' htiles'
    exact tiles_unique htiles' htiles (hwritten'.trans hwritten.symm)
  · intro n hn
    obtain ⟨hnext, hforward, hposition⟩ := hreads n hn
    rw [List.length_nil, Nat.zero_add] at hposition
    exact ⟨hnext, hforward, hposition⟩

end Cursor

end SqlTables
