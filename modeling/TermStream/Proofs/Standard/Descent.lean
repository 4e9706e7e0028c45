import TermStream.Grammar.Standard
import TermStream.Term

namespace TermStream.Descent

/-- What has been made of the phrases `ps`, and the phrases that are left of them. -/
structure Translated (ps : List Phrase) where
  terms : List Term
  rest : List Phrase
  rest_le : rest.length ≤ ps.length

/-- A phrase that stands in front of a statement, or in front of nothing. -/
def isTrivia (p : Phrase) : Bool := p.kind == .ignorable || p.kind == .softStatementEnd

/-- A phrase that is a part of a statement, and starts one where there is none. -/
def isPart (p : Phrase) : Bool := p.kind == .significant || p.kind == .startBlock

def stamped (t : Term) : Term := { t with grammar := some Grammar.standardId }

def wrapped (kind : TermKind) (role : Role) (p : Phrase) : Term := stamped (.wrap kind role p)

def before (kind : TermKind) (p : Phrase) : Term := stamped (.event kind .unknown p.start)

def passed (p : Phrase) : Term := stamped (.ignorable p)

def value (p : Phrase) : Term :=
  match p.tokenKind? with
  | some .graphics => wrapped .structural .operator p
  | some .comma | some .bracket => wrapped .structural .separator p
  | _ => wrapped .value .primary p

mutual

/-- A token, or a block with the sequence in it. A block that is not closed ends where the sequence
does. -/
def element (p : Phrase) (ps : List Phrase) : Translated ps :=
  if p.kind = .startBlock then
    match sequence ps with
    | ⟨inner, [], _⟩ => ⟨wrapped .blockStart .separator p :: inner, [], Nat.zero_le _⟩
    | ⟨inner, q :: rest, hle⟩ =>
      if q.kind = .endBlock then
        ⟨wrapped .blockStart .separator p :: inner ++ [wrapped .blockEnd .separator q], rest,
          Nat.le_of_succ_le hle⟩
      else ⟨wrapped .blockStart .separator p :: inner ++ [before .blockEnd q], q :: rest, hle⟩
  else ⟨[value p], ps, Nat.le_refl _⟩
termination_by (ps.length + 1, 0)

/-- The elements of a statement and its end. -/
def body : (ps : List Phrase) → Translated ps
  | [] => ⟨[], [], Nat.le_refl _⟩
  | p :: ps =>
    match p.kind with
    | .ignorable =>
      let others := body ps
      ⟨passed p :: others.terms, others.rest, Nat.le_succ_of_le others.rest_le⟩
    | .significant | .startBlock =>
      let ⟨first, rest, hle⟩ := element p ps
      let others := body rest
      ⟨first ++ others.terms, others.rest, Nat.le_succ_of_le (Nat.le_trans others.rest_le hle)⟩
    | .softStatementEnd | .statementEnd =>
      ⟨[wrapped .statementEnd (if p.hasToken then .separator else .unknown) p], ps, Nat.le_succ _⟩
    | .control | .endBlock | .eof => ⟨[before .statementEnd p], p :: ps, Nat.le_refl _⟩
termination_by ps => (ps.length, 1)

/-- A statement whose first element starts with `p`, with what stands in front of it. -/
def statement (leading : List Phrase) (p : Phrase) (ps : List Phrase) : Translated ps :=
  let ⟨first, rest, hle⟩ := element p ps
  let others := body rest
  ⟨before .statementStart (leading.headD p) :: leading.map passed ++ first ++ others.terms,
    others.rest, Nat.le_trans others.rest_le hle⟩
termination_by (ps.length + 1, 2)

/-- Statements up to the end of a block or of the input. -/
def sequence : (ps : List Phrase) → Translated ps
  | [] => ⟨[], [], Nat.le_refl _⟩
  | p :: ps =>
    match p.kind with
    | .endBlock | .eof => ⟨[], p :: ps, Nat.le_refl _⟩
    | .control =>
      let others := sequence ps
      ⟨wrapped .control .control p :: others.terms, others.rest, Nat.le_succ_of_le others.rest_le⟩
    | .statementEnd =>
      let others := sequence ps
      ⟨(if p.hasToken then [wrapped .control .control p] else []) ++ others.terms, others.rest,
        Nat.le_succ_of_le others.rest_le⟩
    | .significant | .startBlock =>
      let ⟨first, rest, hle⟩ := statement [] p ps
      let others := sequence rest
      ⟨first ++ others.terms, others.rest, Nat.le_succ_of_le (Nat.le_trans others.rest_le hle)⟩
    | .ignorable | .softStatementEnd =>
      let leading := p :: ps.takeWhile isTrivia
      match h : ps.dropWhile isTrivia with
      | [] => ⟨leading.map passed, [], Nat.zero_le _⟩
      | q :: rest =>
        have hdrop : rest.length < ps.length := length_lt_of_dropWhile h
        if isPart q then
          let ⟨first, rest', hle⟩ := statement leading q rest
          let others := sequence rest'
          ⟨first ++ others.terms, others.rest, Nat.le_succ_of_le
            (Nat.le_trans others.rest_le (Nat.le_trans hle (Nat.le_of_lt hdrop)))⟩
        else
          let others := sequence (q :: rest)
          ⟨leading.map passed ++ others.terms, others.rest,
            Nat.le_succ_of_le (Nat.le_trans others.rest_le hdrop)⟩
termination_by ps => (ps.length, 3)

end

/-- All statements of a document and then the end of the input. The end of a block that was never
opened is passed over, and the statements go on behind it. -/
def document (ps : List Phrase) : List Term :=
  match sequence ps with
  | ⟨terms, [], _⟩ => terms
  | ⟨terms, p :: rest, _⟩ =>
    if p.kind = .eof then terms ++ [wrapped .eof .unknown p]
    else terms ++ wrapped .control .control p :: document rest
termination_by ps.length

end TermStream.Descent
