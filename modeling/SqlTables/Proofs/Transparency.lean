import SqlTables.Proofs.Simulation
import SqlTables.Proofs.Token.Spans

/-!
# `SqlTables.Proofs.Transparency` — only the tokens of a statement count

What is read from a statement depends on its text through the tokens alone, and on a string in
apostrophes not even through what it holds. Comments and blanks may be exchanged for others that keep
the tokens. Bytes may therefore be replaced by the list of their tokens, on which most other facts are
proved.

## Contents
- **`Token.Alike`**: tokens that no statement tells apart.
- **`extract_eq_of_alike`** and **`extract_tokens`**: the extraction on bytes and on their tokens.
- **`read_eq_of_tokens_alike`**: whole summaries.
-/

namespace SqlTables

open TokenSource

/-! ## Tokens that no statement tells apart -/

/-- Equal tokens, or two strings in apostrophes, whatever they hold. -/
def Token.Alike : Token → Token → Prop
  | .quoted .single _, .quoted .single _ => True
  | t, u => t = u

instance : DecidableRel Token.Alike := by
  intro t u
  unfold Token.Alike
  split <;> infer_instance

/-- Tokens are alike if they are equal or both in single quotes. -/
theorem alike_iff {t u : Token} :
    t.Alike u ↔ t = u ∨ ∃ x y, t = .quoted .single x ∧ u = .quoted .single y := by
  unfold Token.Alike
  split
  · next x y => exact ⟨fun _ => Or.inr ⟨x, y, rfl, rfl⟩, fun _ => trivial⟩
  · next hne =>
      constructor
      · exact Or.inl
      · rintro (h | ⟨x, y, rfl, rfl⟩)
        · exact h
        · exact (hne x y rfl rfl).elim

theorem alike_refl (t : Token) : t.Alike t := alike_iff.mpr (Or.inl rfl)

instance : LikeTokens Token.Alike where
  like := by
    intro t u h
    rcases alike_iff.mp h with rfl | ⟨x, y, rfl, rfl⟩
    · exact .rfl
    · refine ⟨rfl, rfl, fun _ => rfl, rfl, fun c => ?_⟩
      constructor <;> rintro ⟨⟩

/-- Strings in apostrophes name nothing, so tokens that do are equal. -/
theorem eq_of_sameIdentifier {t u : Token} (h : SameIdentifier Token.Alike t u) : t = u := by
  rcases alike_iff.mp h.1 with rfl | ⟨x, y, rfl, rfl⟩
  · rfl
  · cases h.2

/-- A name has no part in single quotes, so names that are alike are equal. -/
theorem eq_of_likeName {n m : QualifiedName} (h : LikeName Token.Alike n m) : n = m := by
  obtain ⟨schema, table⟩ := n
  obtain ⟨schema', table'⟩ := m
  obtain rfl : table = table' := eq_of_sameIdentifier h.table
  rcases h.schema with ⟨rfl, rfl⟩ | ⟨t, u, rfl, rfl, htu⟩
  · rfl
  · rw [eq_of_sameIdentifier htu]

/-! ## Equal findings -/

/-- Both runs bind the same names and find the same. -/
def FindingsRel.same : FindingsRel where
  bound := Eq
  found _ _ := Eq
  empty _ := rfl
  append := by
    rintro b c f g f' g' rfl rfl
    rfl
  extend := by
    rintro b c f g rfl rfl
    rfl

variable {σ τ : Type} [TokenSource σ] [TokenSource τ]

/-- Nothing that is recorded depends on what stands in single quotes. -/
theorem envRel_same (lower usingTables : Bool) :
    EnvRel Token.Alike .same (Env.nested (σ := σ) lower usingTables 0)
      (Env.nested (σ := τ) lower usingTables 0) where
  usingTables _ _ := rfl
  record := by
    rintro b c n m rfl hname
    rw [eq_of_likeName hname]
    rfl
  names := by
    rintro w w' b c t u _ _ _ htu
    rw [eq_of_sameIdentifier htu]
    rfl
  search _ _ _ := rfl

variable [LawfulSource σ] [LawfulSource τ]

/-- Sources whose tokens are alike yield the same. -/
theorem extract_eq_of_alike {s : σ} {t : τ} (h : Follows Token.Alike s t) (options : Options)
    (held : StatementType) : extract options held s = extract options held t := by
  have hE : ∀ type : StatementType,
      EnvRel Token.Alike .same
        (Env.nested (σ := σ) options.lowerCaseNames (type == .delete) options.maxDepth)
        (Env.nested (σ := τ) options.lowerCaseNames (type == .delete) options.maxDepth) := by
    intro type
    exact (envRel_same options.lowerCaseNames (type == .delete)).lift options.maxDepth
  obtain ⟨htype, f, g, hfg, hs, ht⟩ := extract_rel (o := options) (rfl : held = held) hE rfl h
  obtain rfl : f = g := hfg
  exact Prod.ext htype (hs.trans ht.symm)

/-- A statement may be read from the list of its tokens. -/
theorem extract_tokens (options : Options) (held : StatementType) (bs : Bytes) :
    extract options held bs = extract options held bs.tokens := by
  refine extract_eq_of_alike ?_ options held
  unfold Follows
  rw [tokens_bytes, tokens_list]
  exact tracks_refl alike_refl _

/-- Texts whose tokens are alike one by one have the same summary. -/
theorem extract_eq_of_tokens_alike {a b : Bytes} (h : List.Forall₂ Token.Alike a.tokens b.tokens)
    (options : Options) (held : StatementType) : extract options held a = extract options held b := by
  refine extract_eq_of_alike ?_ options held
  unfold Follows
  rw [tokens_bytes, tokens_bytes]
  exact tracks_of_forall₂ h

/-! ## Whole summaries -/

/-- **Only the tokens of a statement count.** Two texts of alike tokens add the same to any summary,
    however they are laid out and commented, and whatever their strings hold. -/
theorem read_eq_of_tokens_alike {a b : Bytes} (h : List.Forall₂ Token.Alike a.tokens b.tokens)
    (options : Options) (summary : Summary) :
    summary.read options a = summary.read options b := by
  unfold Summary.read
  rw [extract_eq_of_tokens_alike h]

/-- Both texts cut a span out of the statement; that of the second one ends in a comment when it is
    read again. -/
theorem read_eq_of_tokens_alike_cut :
    let a := ascii "SELECT 'x' FROM (SELECT b FROM `t`- - /* , c */) # d\n, u"
    let b := ascii "SELECT'; FROM z'FROM(SELECT b\nFROM `t`--), -- e\n u"
    List.Forall₂ Token.Alike a.tokens b.tokens ∧
      Summary.read {} {} a = Summary.read {} {} b := by
  have h : List.Forall₂ Token.Alike
      (ascii "SELECT 'x' FROM (SELECT b FROM `t`- - /* , c */) # d\n, u").tokens
      (ascii "SELECT'; FROM z'FROM(SELECT b\nFROM `t`--), -- e\n u").tokens := by
    decide +kernel
  exact ⟨h, read_eq_of_tokens_alike h {} {}⟩

end SqlTables
