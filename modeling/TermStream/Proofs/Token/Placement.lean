import Mathlib.Algebra.GroupWithZero.Nat
import TermStream.Proofs.Token.Tiling

namespace TermStream

open Text

namespace Position

/-- The position behind the text at the beginning of a source. -/
def behind (text : List Char) : Position := start.advanceAll none text

theorem advanceAll_append (p : Position) (before : Option Char) (xs ys : List Char) :
    p.advanceAll before (xs ++ ys) =
      (p.advanceAll before xs).advanceAll (xs.getLast?.or before) ys := by
  induction xs generalizing p before with
  | nil => rfl
  | cons c xs ih =>
    rw [List.cons_append, advanceAll, ih, List.getLast?_cons]
    cases xs.getLast? <;> rfl

theorem behind_append (xs ys : List Char) :
    behind (xs ++ ys) = (behind xs).advanceAll xs.getLast? ys := by
  rw [behind, advanceAll_append, Option.or_none]
  rfl

theorem advanceAll_offset (p : Position) (before : Option Char) (cs : List Char) :
    (p.advanceAll before cs).offset = p.offset + byteLength cs := by
  induction cs generalizing p before with
  | nil => rfl
  | cons c cs ih => rw [advanceAll, ih, advance_offset, byteLength_cons, Nat.add_assoc]

theorem behind_offset (text : List Char) : (behind text).offset = byteLength text := by
  rw [behind, advanceAll_offset]
  exact Nat.zero_add _

end Position

section

variable {α : Type} {start stop : α → Position} {text : α → String} {before : List Char}
  {as bs : List α} {a : α}

/-- Each part stands where the text of those before it ends, and behind the text `before`. -/
def Laid (start stop : α → Position) (text : α → String) : List Char → List α → Prop
  | _, [] => True
  | before, a :: as =>
    start a = .behind before ∧ stop a = .behind (before ++ (text a).toList) ∧
      Laid start stop text (before ++ (text a).toList) as

def textOf (text : α → String) (as : List α) : List Char := as.flatMap fun a => (text a).toList

@[simp] theorem textOf_nil (text : α → String) : textOf text [] = [] := rfl

@[simp] theorem textOf_cons (text : α → String) (a : α) (as : List α) :
    textOf text (a :: as) = (text a).toList ++ textOf text as := rfl

@[simp] theorem textOf_append (text : α → String) (as bs : List α) :
    textOf text (as ++ bs) = textOf text as ++ textOf text bs :=
  List.flatMap_append

theorem byteLength_textOf (text : α → String) (as : List α) :
    byteLength (textOf text as) = (as.map fun a => byteLength (text a).toList).sum := by
  induction as with
  | nil => rfl
  | cons a as ih => rw [textOf_cons, byteLength_append, ih, List.map_cons, List.sum_cons]

theorem laid_append : Laid start stop text before (as ++ bs) ↔
    Laid start stop text before as ∧ Laid start stop text (before ++ textOf text as) bs := by
  induction as generalizing before with
  | nil => simp [Laid]
  | cons a as ih => simp [Laid, ih, and_assoc]

/-- A part without text can be put in anywhere, if it stands there. -/
theorem Laid.insert (h : Laid start stop text before (as ++ bs)) (ht : text a = "")
    (hs : start a = .behind (before ++ textOf text as)) (he : stop a = start a) :
    Laid start stop text before (as ++ a :: bs) := by
  obtain ⟨has, hbs⟩ := laid_append.1 h
  refine laid_append.2 ⟨has, hs, ?_, ?_⟩
  · rw [he, hs, ht]
    simp
  · rw [ht]
    simpa using hbs

theorem Laid.start_head (h : Laid start stop text before (as ++ bs)) {b : α}
    (hb : bs.head? = some b) :
    start b = .behind (before ++ textOf text as) := by
  cases bs with
  | nil => cases hb
  | cons c bs =>
    cases hb
    exact (laid_append.1 h).2.1

theorem Laid.offset_ge (h : Laid start stop text before as) :
    ∀ a ∈ as, byteLength before ≤ (start a).offset := by
  induction as generalizing before with
  | nil => exact nofun
  | cons b as ih =>
    obtain ⟨hs, -, hrest⟩ := h
    intro a hmem
    rcases List.mem_cons.1 hmem with rfl | hmem
    · have hoffset : (start a).offset = byteLength before := by rw [hs, Position.behind_offset]
      exact Nat.le_of_eq hoffset.symm
    · have hle := ih hrest a hmem
      rw [byteLength_append] at hle
      omega

theorem Laid.offset_sorted (h : Laid start stop text before as) :
    as.Pairwise fun a b => (start a).offset ≤ (start b).offset := by
  induction as generalizing before with
  | nil => exact .nil
  | cons a as ih =>
    obtain ⟨hs, -, hrest⟩ := h
    refine .cons (fun b hb => ?_) (ih hrest)
    have hle := hrest.offset_ge b hb
    rw [hs, Position.behind_offset]
    rw [byteLength_append] at hle
    omega

end

def Token.Laid : List Char → List Token → Prop := TermStream.Laid Token.start Token.stop Token.text

namespace Lexer

/-- The tokens to come stand one after the other, from the position of the lexer on. -/
theorem ahead_laid {l : Lexer} {source : String} {before : List Char} (cs : List Char)
    (hs : l.source = some source) (hp : l.pending = none) (he : l.ended = false)
    (hpos : l.position = .behind before) (hprev : l.previous = before.getLast?) :
    Token.Laid before (l.ahead cs) := by
  revert before
  refine ahead_induction (motive := fun l cs ts => ∀ {before : List Char}, l.position = .behind before →
    l.previous = before.getLast? → Token.Laid before ts) ?_ ?_ cs hs hp he
  · intro l before hpos hprev
    refine ⟨hpos, ?_, trivial⟩
    change l.position = .behind (before ++ "".toList)
    simpa using hpos
  · intro l first rest found text ts hf _ ih before hpos hprev
    have hstop : l.position.advanceAll l.previous text = .behind (before ++ text) := by
      rw [Position.behind_append, hpos, hprev]
    have hprev' : (l.past source found text).previous = (before ++ text).getLast? := by
      simp [past, emptied, take, hprev, List.getLast?_append]
    have htext : (l.made source found text).text.toList = text := String.toList_ofList
    refine ⟨hpos, ?_, ?_⟩
    · rw [htext]
      exact hstop
    · rw [htext]
      exact ih hstop hprev'

end Lexer

theorem tokens_laid {source text : String} {settings : Settings} {ts : List Token}
    (h : tokens source text settings = .ok ts) : Token.Laid [] ts := by
  rw [tokens_eq_ahead] at h
  cases h
  exact Lexer.ahead_laid _ rfl rfl rfl rfl rfl

end TermStream
