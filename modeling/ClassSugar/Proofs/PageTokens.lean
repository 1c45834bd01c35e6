import ClassSugar.Proofs.JoinedTypes
import ClassSugar.Proofs.LineComposition
import ClassSugar.Proofs.TokenRuns

/-!
# Texts that are cut into tokens

A page is put together from words, operators, code and the blanks between them. Its tokens are found
from its end to its start: whoever knows the tokens of a text knows them with a word and some blanks
put before it. `Token.Lexes` says of a text that it is cut into tokens of some form wherever it
stands, and the lemmas about it put one token more before it.
-/

namespace ClassSugar

open ClassSugar.Text ClassSugar.Renaming Lookahead

namespace Token

/-- The token has this kind and this text, and no comment before it. -/
structure Shows (kind : Token.Kind) (text : String) (t : Token) : Prop where
  kind : t.kind = kind
  text : t.text = text
  leading : t.leading = []

/-- Some blanks, and nothing else. -/
def IsGap (ws : List Char) : Prop :=
  ws ≠ [] ∧ ws.all isBlank = true

instance (ws : List Char) : Decidable (IsGap ws) :=
  inferInstanceAs (Decidable (_ ∧ _))

theorem IsGap.isBlank_head {ws cs : List Char} {d : Char} (h : IsGap ws)
    (hd : (ws ++ cs).head? = some d) : isBlank d = true := by
  rw [List.head?_append_of_ne_nil _ h.1] at hd
  exact List.all_eq_true.mp h.2 d (List.mem_of_head? hd)

/-- An operator ends before a blank: neither an operator nor a number goes on with one. -/
theorem ends_of_isBlank {w : String} {d : Char} (hd : isBlank d = true) : Ends w d := by
  refine ⟨fun q hq hstarts => ?_, fun _ => Bool.eq_false_iff.mpr fun hdigit => ?_⟩
  · have hmem := hstarts.subset (List.mem_append_right _ (List.mem_singleton_self _))
    rw [isBlank_of_mem_puncts hq hmem] at hd
    cases hd
  · rw [isBlank_of_isWordPart (isWordPart_of_isWordChar (isWordChar_of_isDigit hdigit))] at hd
    cases hd

/-- Wherever the text stands, it is cut into tokens of which `T` holds; it starts with no blank. -/
structure Lexes (cs : List Char) (T : Place → List Token → Prop) : Prop where
  solid : ∀ d, cs.head? = some d → isBlank d = false
  cut : ∀ lineStart p gap, ∃ ps, pieces lineStart cs = .ok ps ∧ T p (ofPieces p gap [] ps)

namespace Lexes

variable {kind : Token.Kind} {w : String} {cs : List Char} {T U : Place → List Token → Prop}

theorem mono (h : Lexes cs T) (hTU : ∀ p ts, T p ts → U p ts) : Lexes cs U := by
  refine ⟨h.solid, fun lineStart p gap => ?_⟩
  obtain ⟨ps, hps, hT⟩ := h.cut lineStart p gap
  exact ⟨ps, hps, hTU p _ hT⟩

theorem nil : Lexes [] fun _ ts => ∃ t, t.Shows .eof "" ∧ ts = [t] :=
  ⟨nofun, fun _ _ _ => ⟨[], by rw [pieces.eq_def], _, ⟨rfl, rfl, rfl⟩, rfl⟩⟩

/-- Blanks in front of a text only move it. -/
theorem blanks (h : Lexes cs T) (ws : List Char) (hws : ws.all isBlank = true)
    (lineStart : Bool) (p : Place) (gap : List Char) :
    ∃ ps, pieces lineStart (ws ++ cs) = .ok ps ∧ T (p.advance ws) (ofPieces p gap [] ps) := by
  cases ws with
  | nil => exact h.cut lineStart p gap
  | cons c a =>
    obtain ⟨hc, ha⟩ := List.forall_mem_cons.mp (List.all_eq_true.mp hws)
    have hcut : IsCut lineStart ⟨.blank, c :: a⟩ cs := isCut_blank hc ha h.solid
    obtain ⟨ps, hps, hT⟩ :=
      h.cut (Piece.lineStartAfter lineStart ⟨.blank, c :: a⟩) (p.advance (c :: a)) (gap ++ c :: a)
    refine ⟨_, hcut.pieces_eq hps, ?_⟩
    rwa [ofPieces_blank]

/-- A token with blanks behind it. -/
theorem token (h : Lexes cs T) (ws : List Char) (hws : IsGap ws) (hne : w.toList ≠ [])
    (hw : ∀ d ∈ w.toList, isBlank d = false)
    (hcut : ∀ lineStart, IsCut lineStart ⟨.token kind, w.toList⟩ (ws ++ cs)) :
    Lexes (w.toList ++ (ws ++ cs)) fun p ts => ∃ t rest, t.Shows kind w ∧ t.column = p.column ∧
      T ((p.advance w.toList).advance ws) rest ∧ ts = t :: rest := by
  refine ⟨fun d hd => hw d ?_, fun lineStart p gap => ?_⟩
  · rw [List.head?_append_of_ne_nil _ hne] at hd
    exact List.mem_of_head? hd
  · obtain ⟨ps, hps, hT⟩ := h.blanks ws hws.2
      (Piece.lineStartAfter lineStart ⟨.token kind, w.toList⟩) (p.advance w.toList) []
    exact ⟨_, (hcut lineStart).pieces_eq hps, _, _, ⟨rfl, String.ofList_toList, rfl⟩, rfl, hT, rfl⟩

theorem name (h : Lexes cs T) (ws : List Char) (hws : IsGap ws) (hw : IsName w.toList) :
    Lexes (w.toList ++ (ws ++ cs)) fun p ts => ∃ t rest, t.Shows .ident w ∧ t.column = p.column ∧
      T ((p.advance w.toList).advance ws) rest ∧ ts = t :: rest := by
  refine h.token ws hws hw.ne_nil (fun d hd => isBlank_of_isWordPart (hw.isWordPart d hd))
    fun _ => ?_
  obtain ⟨c, a, hca⟩ := List.exists_cons_of_ne_nil hw.ne_nil
  rw [hca] at hw ⊢
  refine isCut_name hw fun d hd => Bool.eq_false_iff.mpr fun hword => ?_
  have hblank := isBlank_of_isWordPart (isWordPart_of_isWordChar hword)
  rw [hws.isBlank_head hd] at hblank
  cases hblank

theorem operator (h : Lexes cs T) (ws : List Char) (hws : IsGap ws) (hw : w ∈ puncts)
    (hslash : '/' ∉ w.toList) :
    Lexes (w.toList ++ (ws ++ cs)) fun p ts => ∃ t rest, t.Shows .punct w ∧ t.column = p.column ∧
      T ((p.advance w.toList).advance ws) rest ∧ ts = t :: rest := by
  refine h.token ws hws (ne_empty_of_mem_puncts w hw) (fun _ => isBlank_of_mem_puncts hw) fun _ =>
    isCut_operator hw hslash fun d hd => ends_of_isBlank (hws.isBlank_head hd)

end Lexes

/-- Kinds and texts decide where a run of tokens ends, and nothing behind it. -/
theorem countUntil_append_of_form (stop : Kind × String → Bool) {angles : Bool}
    {ts us rest : List Token} {depth n : Nat} (hform : ts.map form = us.map form)
    (h : countUntil angles (fun t => stop (form t)) depth us = .ok n) :
    countUntil angles (fun t => stop (form t)) depth (ts ++ rest) = .ok n := by
  induction us generalizing ts depth n with
  | nil => cases h
  | cons u us ih =>
    obtain ⟨t, ts, rfl, ht, hts⟩ := List.map_eq_cons_iff.mp hform
    obtain ⟨hkind, htext⟩ := Prod.mk.inj ht
    have hpass : ∀ depth n,
        (countUntil angles (fun t => stop (form t)) depth us).map (· + 1) = .ok n →
        (countUntil angles (fun t => stop (form t)) depth (ts ++ rest)).map (· + 1) = .ok n := by
      intro depth n hmap
      cases hus : countUntil angles (fun t => stop (form t)) depth us with
      | error e => rw [hus] at hmap; cases hmap
      | ok m => rw [ih hts hus]; rw [hus] at hmap; exact hmap
    simp only [List.cons_append, countUntil, isOpen, isClose, isPunct, hkind, htext, ht] at h ⊢
    grind

end Token

namespace Place

theorem column_advance_of_unbroken {p : Place} {cs : List Char}
    (h : ∀ c ∈ cs, c = ' ' ∨ isBlank c = false) :
    (p.advance cs).column = p.column + cs.length := by
  induction cs generalizing p with
  | nil => rfl
  | cons c cs ih =>
    obtain ⟨hc, hcs⟩ := List.forall_mem_cons.mp h
    have hline : c ≠ '\n' ∧ c ≠ '\t' := by
      constructor <;> rintro rfl <;> exact absurd hc (by decide)
    rw [advance_cons, ih hcs, step, List.length_cons]
    simp only [if_neg hline.1, if_neg hline.2]
    omega

theorem column_advance_newline (p : Place) (ds : List Char) :
    (p.advance ('\n' :: ds)).column = ((start 0).advance ds).column := by
  have hsame : ∀ {p q : Place}, p.column = q.column →
      (p.advance ds).column = (q.advance ds).column := by
    induction ds with
    | nil => exact id
    | cons d ds ih =>
      intro p q h
      refine ih ?_
      simp only [step, h]
  exact hsame rfl

end Place

end ClassSugar
