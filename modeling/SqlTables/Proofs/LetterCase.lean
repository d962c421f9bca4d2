import SqlTables.Proofs.Statement
import SqlTables.Proofs.Token.Spans
import SqlTables.Proofs.Token.Upper

/-!
# `SqlTables.Proofs.LetterCase` — letters may be written in either case

Two texts that are equal up to the case of ASCII letters are statements of the same type with the same
references up to that case, and with equal references where names are recorded in lower case. Their
tokens are equal in upper case, and the two runs bind and record names that agree.

## Contents
- **Lower case of texts**: `toLower_eq_of_sameName`.
- **Names**: `sameName_upper`, and `NamesAgree` for names that two tokens spell.
- **`Token.SameLetters`**: tokens that are equal in upper case are read alike.
- **`FindingsRel.agreeing`** and `envRel_agreeing`: two runs whose names agree.
- **`parse_sameWord`**: whole statements.
-/

namespace SqlTables

open TokenSource

/-! ## Lower case of texts -/

/-- A function that takes the capital letters for the small ones takes any character for its lower-case
    form, since ASCII letters are the only ones that have one here. -/
theorem apply_toLower {α : Type} {f : Char → α}
    (h : ∀ n : Fin 26, f (Char.ofNat (n + 0x41)).toLower = f (Char.ofNat (n + 0x41))) (c : Char) :
    f c.toLower = f c := by
  by_cases hc : c.val ≥ 'A'.val ∧ c.val ≤ 'Z'.val
  · have hlow : 0x41 ≤ c.toNat := UInt32.le_iff_toNat_le.mp hc.1
    have hhigh : c.toNat ≤ 0x5a := UInt32.le_iff_toNat_le.mp hc.2
    have hletter := h ⟨c.toNat - 0x41, by omega⟩
    simp only [Nat.sub_add_cancel hlow, Char.ofNat_toNat] at hletter
    exact hletter
  · rw [show c.toLower = c from dif_neg hc]

namespace LowerCase

theorem lowerChar_toLower (c : Char) : lowerChar c.toLower = lowerChar c :=
  apply_toLower (by decide +kernel) c

theorem isCased_toLower (c : Char) : isCased c.toLower = isCased c :=
  apply_toLower (by decide +kernel) c

theorem isCaseIgnorable_toLower (c : Char) : isCaseIgnorable c.toLower = isCaseIgnorable c :=
  apply_toLower (by decide +kernel) c

/-- `Σ` is outside of ASCII, so no other character is put in its place. -/
theorem toLower_eq_sigma (c : Char) : (c.toLower = 'Σ') = (c = 'Σ') := by
  have h := apply_toLower (f := fun c => decide (c = 'Σ')) (by decide +kernel) c
  simpa using h

/-- Whether a letter comes next does not depend on the case of letters of ASCII. -/
theorem startsCased_map_toLower (text : List Char) :
    startsCased (text.map Char.toLower) = startsCased text := by
  have hignorable : isCaseIgnorable ∘ Char.toLower = isCaseIgnorable :=
    funext isCaseIgnorable_toLower
  simp only [startsCased, List.dropWhile_map, hignorable, List.head?_map, Option.any_map,
    isCased_toLower]

/-- Folding a text of which letters of ASCII are folded already gives the same. The induction is on the text,
    with what stands in front of it left open. -/
theorem lowerFrom_map_toLower (afterCased : Bool) (text : List Char) :
    lowerFrom afterCased (text.map Char.toLower) = lowerFrom afterCased text := by
  induction text generalizing afterCased with
  | nil => rfl
  | cons c text ih =>
      simp only [List.map_cons, lowerFrom, toLower_eq_sigma, lowerSigma, startsCased_map_toLower,
        lowerChar_toLower, isCaseIgnorable_toLower, isCased_toLower, ih]

/-- Texts that are equal up to the case of ASCII letters have one lower-case form. -/
theorem toLower_eq_of_sameName {a b : String} (h : sameName a b = true) : toLower a = toLower b := by
  unfold toLower
  rw [← lowerFrom_map_toLower, sameName_iff.mp h, lowerFrom_map_toLower]

end LowerCase

/-! ## Names -/

namespace Utf8

/-- No byte inside ASCII continues a character. -/
def Pending.OutsideAscii (state : Option Pending) : Prop := ∀ p ∈ state, 0x80 ≤ p.low

/-- A first byte waits for bytes outside of ASCII. -/
theorem outsideAscii_lead? (b : UInt8) : Pending.OutsideAscii (lead? b) := by
  intro p hp
  have h : lead? b = some p := hp
  unfold lead? at h
  grind

/-- A byte at the start of a character leaves nothing pending, or waits for bytes outside of ASCII. -/
theorem outsideAscii_start (b : UInt8) : Pending.OutsideAscii (start b).2 := by
  have h := outsideAscii_lead? b
  intro p hp
  unfold start at hp
  split at hp
  · cases hp
  · cases hl : lead? b with
    | none =>
        rw [hl] at hp
        cases hp
    | some q =>
        rw [hl] at hp h
        exact h p hp

/-- Whatever byte comes next, the decoder waits for bytes outside of ASCII at most. -/
theorem outsideAscii_step (state : Option Pending) (b : UInt8) :
    Pending.OutsideAscii (step state b).2 := by
  unfold step
  cases state with
  | none => exact outsideAscii_start b
  | some p =>
      simp only
      split
      · split
        · intro q hq
          cases hq
        · intro q hq
          rw [← Option.some.inj hq]
          exact UInt8.le_refl _
      · exact outsideAscii_start b

/-- The same characters up to the case of ASCII letters. -/
theorem start_upper (b : UInt8) :
    (start (upper b)).1.map Char.toLower = (start b).1.map Char.toLower ∧
      (start (upper b)).2 = (start b).2 := by
  by_cases hb : b < 0x80
  · have hupper : upper b < 0x80 := by
      unfold upper
      grind
    have all : ∀ n : Fin 128, (Char.ofNat (upper (UInt8.ofNat n)).toNat).toLower =
        (Char.ofNat n).toLower := by decide +kernel
    have hchar := all ⟨b.toNat, UInt8.lt_iff_toNat_lt.mp hb⟩
    simp only [UInt8.ofNat_toNat] at hchar
    simp only [start, hb, hupper, if_true, List.map_cons, List.map_nil, hchar, and_self]
  · have hupper : upper b = b := by
      unfold upper
      grind
    rw [hupper]
    exact ⟨rfl, rfl⟩

/-- A letter and its upper-case form are decoded to the same letter but for its case, and leave the same
    state. -/
theorem step_upper {state : Option Pending} (h : Pending.OutsideAscii state) (b : UInt8) :
    (step state (upper b)).1.map Char.toLower = (step state b).1.map Char.toLower ∧
      (step state (upper b)).2 = (step state b).2 := by
  cases state with
  | none => exact start_upper b
  | some p =>
      have hlow : 0x80 ≤ p.low := h p rfl
      obtain ⟨hchars, hstate⟩ := start_upper b
      by_cases hb : b < 0x80
      · -- A letter ends what is pending, in either case.
        have hupper : ¬ (p.low ≤ upper b ∧ upper b ≤ p.high) := by
          unfold upper
          grind
        have hstay : ¬ (p.low ≤ b ∧ b ≤ p.high) := by
          grind
        simp only [step, hupper, hstay, if_false, List.map_cons, hchars, hstate, and_self]
      · have hupper : upper b = b := by
          unfold upper
          grind
        rw [hupper]
        exact ⟨rfl, rfl⟩

/-- A text in upper case is decoded to the same characters but for their case. -/
theorem decodeFrom_map_upper {state : Option Pending} (h : Pending.OutsideAscii state)
    (bs : Bytes) :
    (decodeFrom state (bs.map upper)).map Char.toLower =
      (decodeFrom state bs).map Char.toLower := by
  induction bs generalizing state with
  | nil => rfl
  | cons b bs ih =>
      obtain ⟨hchars, hstate⟩ := step_upper h b
      simp only [List.map_cons, decodeFrom, List.map_append, hchars, hstate]
      rw [ih (outsideAscii_step state b)]

end Utf8

/-- A token spells the same name in upper case, up to the case of ASCII letters. -/
theorem sameName_upper (t : Token) : sameName (t.upper.name false) (t.name false) = true := by
  have hpending : Utf8.Pending.OutsideAscii none := by
    intro p hp
    cases hp
  have hchars := Utf8.decodeFrom_map_upper hpending t.spelling
  rw [sameName_iff, Token.name, Token.name, Token.spelling_upper]
  simpa [Utf8.decodeLossy] using hchars

theorem sameName_trans {a b c : String} (hab : sameName a b = true) (hbc : sameName b c = true) :
    sameName a c = true :=
  sameName_iff.mpr ((sameName_iff.mp hab).trans (sameName_iff.mp hbc))

/-- Names that are equal up to the case of ASCII letters, and equal where they are recorded in lower
    case. -/
structure NamesAgree (lower : Bool) (a b : String) : Prop where
  same : sameName a b = true
  eq : lower = true → a = b

/-! ## Tokens -/

/-- The same token up to the case of ASCII letters. -/
def Token.SameLetters (t u : Token) : Prop := t.upper = u.upper

theorem startsName_upper (t : Token) : startsName t.upper = startsName t := by
  rw [startsName, startsName, t.isIdentifier_upper, Token.isKeyword, Token.isKeyword,
    t.keyword?_upper]

theorem isAlias_upper (t : Token) : isAlias t.upper = isAlias t := by
  cases t with
  | word text => exact startsName_upper (.word text)
  | quoted q content => rfl
  | punct b => rfl

instance : LikeTokens Token.SameLetters where
  like := by
    intro t u h
    have hupper : t.upper = u.upper := h
    refine ⟨?_, ?_, ?_, ?_, ?_⟩
    · rw [← t.isIdentifier_upper, hupper, u.isIdentifier_upper]
    · rw [← t.keyword?_upper, hupper, u.keyword?_upper]
    · intro names
      rw [← t.isWordOf_upper, hupper, u.isWordOf_upper]
    · rw [← isAlias_upper, hupper, isAlias_upper]
    · intro c
      rw [← t.upper_eq_sym_iff, hupper, u.upper_eq_sym_iff]

/-- Names of the same letters agree: they are the same without regard to case, and equal where they are
    folded. -/
theorem namesAgree_of_sameLetters {t u : Token} (h : t.SameLetters u) (lower : Bool) :
    NamesAgree lower (t.name lower) (u.name lower) := by
  have hplain : sameName (t.name false) (u.name false) = true := by
    have ht := sameName_symm (sameName_upper t)
    rw [show t.upper = u.upper from h] at ht
    exact sameName_trans ht (sameName_upper u)
  cases lower with
  | false => exact ⟨hplain, by intro h; cases h⟩
  | true =>
      have heq : t.name true = u.name true := LowerCase.toLower_eq_of_sameName hplain
      rw [heq]
      exact ⟨sameName_self _, fun _ => rfl⟩

/-! ## Findings -/

/-- References whose schemas and tables are related, with a schema on both sides or on none. -/
structure TableReference.Agree (R : String → String → Prop) (r r' : TableReference) : Prop where
  schema : Option.Rel R r.schema r'.schema
  table : R r.table r'.table

/-- References that agree agree in any weaker sense as well. -/
theorem TableReference.Agree.imp {R R' : String → String → Prop} {r r' : TableReference}
    (hR : ∀ a b, R a b → R' a b) (h : r.Agree R r') : r.Agree R' r' := by
  obtain ⟨schema, table⟩ := r
  obtain ⟨schema', table'⟩ := r'
  obtain ⟨hschema, htable⟩ := h
  refine ⟨?_, hR _ _ htable⟩
  simp only at hschema ⊢
  cases hschema with
  | none => exact .none
  | some h => exact .some (hR _ _ h)

theorem TableReference.eq_of_agree {r r' : TableReference} (h : r.Agree (· = ·) r') : r = r' := by
  obtain ⟨schema, table⟩ := r
  obtain ⟨schema', table'⟩ := r'
  obtain ⟨hschema, htable⟩ := h
  simp only at hschema htable
  subst htable
  cases hschema with
  | none => rfl
  | some h => rw [h]

/-- Both runs bind names that agree and find references that agree. -/
def FindingsRel.agreeing (lower : Bool) : FindingsRel where
  bound := List.Forall₂ (NamesAgree lower)
  found _ _ f g := List.Forall₂ (TableReference.Agree (NamesAgree lower)) f.references g.references ∧
    List.Forall₂ (NamesAgree lower) f.bound g.bound
  empty _ := ⟨.nil, .nil⟩
  append := by
    rintro b c f g f' g' ⟨hr, hb⟩ ⟨hr', hb'⟩
    exact ⟨List.rel_append hr hr', List.rel_append hb hb'⟩
  extend := by
    rintro b c f g hbc ⟨_, hb⟩
    exact List.rel_append hbc hb

/-- Names that agree hide the same tables. -/
theorem hides_of_namesAgree {lower : Bool} {b c : List String} {x y : String}
    (hb : List.Forall₂ (NamesAgree lower) b c) (hx : NamesAgree lower x y) :
    hides b x = hides c y := by
  induction hb with
  | nil => rfl
  | @cons n m b c hname _ ih =>
      have hsame : sameName n x = sameName m y := by
        rw [Bool.eq_iff_iff, sameName_iff, sameName_iff, sameName_iff.mp hname.same,
          sameName_iff.mp hx.same]
      simp only [hides, List.any_cons] at ih ⊢
      rw [hsame, ih]

variable {σ τ : Type} [TokenSource σ] [TokenSource τ]

omit [TokenSource σ] [TokenSource τ] in
/-- Names of the same letters are hidden by the same names, and are recorded as references that agree. -/
theorem record_agreeing {lower : Bool} {env : Env σ} {env' : Env τ} (hE : env.lower = lower)
    (hE' : env'.lower = lower) {b c : List String} (hb : List.Forall₂ (NamesAgree lower) b c)
    {n m : QualifiedName} (h : LikeName Token.SameLetters n m) :
    (FindingsRel.agreeing lower).found b c (env.record b n) (env'.record c m) := by
  obtain ⟨schema, table⟩ := n
  obtain ⟨schema', table'⟩ := m
  have htable := namesAgree_of_sameLetters h.table.1 lower
  have hhides := hides_of_namesAgree hb htable
  unfold Env.record
  simp only [hE, hE']
  simp only at hhides
  rcases h.schema with ⟨rfl, rfl⟩ | ⟨x, y, rfl, rfl, hxy⟩
  · simp only [Option.map_none, Option.isNone_none, Bool.true_and, hhides]
    by_cases hc : hides c (table'.name lower) = true
    · rw [if_pos hc, if_pos hc]
      exact ⟨.nil, .nil⟩
    · rw [if_neg hc, if_neg hc]
      exact ⟨.cons ⟨.none, htable⟩ .nil, .nil⟩
  · have hschema := namesAgree_of_sameLetters hxy.1 lower
    simp only [Option.map_some, Option.isNone_some, Bool.false_and, Bool.false_eq_true, if_false]
    exact ⟨.cons ⟨.some hschema, htable⟩ .nil, .nil⟩

/-- At every level tokens of the same letters lead to findings that agree. -/
theorem envRel_agreeing [LawfulSource σ] [LawfulSource τ] (options : Options)
    (type : StatementType) :
    EnvRel Token.SameLetters (.agreeing options.lowerCaseNames) (.outer options type : Env σ)
      (.outer options type : Env τ) := by
  have hbase : EnvRel Token.SameLetters (.agreeing options.lowerCaseNames)
      (Env.nested (σ := σ) options.lowerCaseNames (type == .delete) 0)
      (Env.nested (σ := τ) options.lowerCaseNames (type == .delete) 0) :=
    { usingTables := by
        intro w w' _ _
        rfl
      record := by
        intro b c n m hb hname
        exact record_agreeing (lower_nested _ _ _) (lower_nested _ _ _) hb hname
      names := by
        intro w w' b c t u _ _ _ htu
        exact ⟨.nil, .cons (namesAgree_of_sameLetters htu.1 _) .nil⟩
      search := by
        intro b c s t place _ _
        exact ⟨.nil, .nil⟩ }
  exact hbase.lift options.maxDepth

/-! ## Whole statements -/

/-- Texts that differ in the case of letters only have tokens of the same letters. -/
theorem follows_of_sameWord {a b : Bytes} (h : a.sameWord b = true) :
    Follows Token.SameLetters a b := by
  have htokens : a.tokens.map Token.upper = b.tokens.map Token.upper := by
    rw [← tokens_map_upper, sameWord_iff.mp h, tokens_map_upper]
  have hpointwise : List.Forall₂ Token.SameLetters a.tokens b.tokens := by
    have heq := List.forall₂_eq_eq_eq ▸ htokens
    rwa [List.forall₂_map_left_iff, List.forall₂_map_right_iff] at heq
  unfold Follows
  rw [tokens_bytes, tokens_bytes]
  exact tracks_of_forall₂ hpointwise

/-- **Letters may be written in either case.** Texts that are equal up to the case of ASCII letters are
    statements of one type, and their references are equal one by one up to that case. Where names are
    recorded in lower case both summaries are equal. -/
theorem parse_sameWord {a b : Bytes} (h : a.sameWord b = true) (options : Options) :
    (parse options a).type = (parse options b).type ∧
      List.Forall₂ (TableReference.Agree (sameName · · = true)) (parse options a).references
        (parse options b).references ∧
      (options.lowerCaseNames = true → parse options a = parse options b) := by
  have hfollows := follows_of_sameWord h
  have htype : command a = command b := command_follows hfollows
  -- One simulation for all levels: related tokens have the same letters, related names agree.
  have hE : ∀ type : StatementType, EnvRel Token.SameLetters (.agreeing options.lowerCaseNames)
      (.outer options type : Env Bytes) (.outer options type : Env Bytes) :=
    envRel_agreeing options
  obtain ⟨hreferences, _⟩ : (FindingsRel.agreeing options.lowerCaseNames).found [] []
      (statement options .unknown [] a) (statement options .unknown [] b) :=
    statement_rel (hE _) (hE _) .nil hfollows
  rw [parse_eq_statement, parse_eq_statement]
  refine ⟨htype, ?_, ?_⟩
  · exact hreferences.imp fun r r' hr => hr.imp fun _ _ hname => hname.same
  · intro hlower
    have heq : List.Forall₂ (· = ·) (statement options .unknown [] a).references
        (statement options .unknown [] b).references :=
      hreferences.imp fun r r' hr => TableReference.eq_of_agree (hr.imp fun _ _ hname => hname.eq hlower)
    rw [List.forall₂_eq_eq_eq] at heq
    rw [htype, heq]

/-- A keyword, a bound name, a schema and two tables in other letters, beside letters that keep their
    case: the last table ends in a capital sigma, which is final in lower case. -/
theorem parse_sameWord_mixed :
    let a := utf8 "With Cte As (Select 1 From T) SELECT * FROM CTE, `Db`.Orders o Join ΟΔΟΣ Using (x)"
    let b := utf8 "WITH cTE aS (select 1 from t) Select * from cte, `dB`.ORDERS O JOIN ΟΔΟΣ using (X)"
    a.sameWord b = true ∧ (parse {} a).type = (parse {} b).type ∧
      List.Forall₂ (TableReference.Agree (sameName · · = true)) (parse {} a).references
        (parse {} b).references ∧
      parse { lowerCaseNames := true } a = parse { lowerCaseNames := true } b := by
  have h : (utf8
      "With Cte As (Select 1 From T) SELECT * FROM CTE, `Db`.Orders o Join ΟΔΟΣ Using (x)").sameWord
      (utf8 "WITH cTE aS (select 1 from t) Select * from cte, `dB`.ORDERS O JOIN ΟΔΟΣ using (X)") =
      true := by decide +kernel
  obtain ⟨htype, hreferences, _⟩ := parse_sameWord h {}
  exact ⟨h, htype, hreferences, (parse_sameWord h { lowerCaseNames := true }).2.2 rfl⟩

end SqlTables
