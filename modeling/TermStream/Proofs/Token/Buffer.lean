import TermStream.Proofs.Token.ChunkInvariance
import TermStream.Proofs.Token.Placement

namespace TermStream

open Text

theorem size_utf8Encode (cs : List Char) : cs.utf8Encode.size = byteLength cs := by
  induction cs with
  | nil => rw [List.utf8Encode_nil]; rfl
  | cons c cs ih =>
    rw [List.utf8Encode_cons, ByteArray.size_append, ih, byteLength_cons, List.utf8Encode_singleton]
    simp

theorem byteLength_reverse (cs : List Char) : byteLength cs.reverse = byteLength cs := by
  induction cs with
  | nil => rfl
  | cons c cs ih =>
    rw [List.reverse_cons, byteLength_append, ih, byteLength_cons, byteLength_cons, byteLength_nil]
    exact Nat.add_comm _ _

theorem utf8ByteSize_ofList (cs : List Char) : (String.ofList cs).utf8ByteSize = byteLength cs := by
  rw [← size_utf8Encode]
  rfl

/-- The bytes of a text, and the place from which they are unread. -/
structure ByteBuffer where
  bytes : ByteArray
  start : Nat

namespace ByteBuffer

def unread (b : ByteBuffer) : ByteArray := b.bytes.extract b.start b.bytes.size

def size (b : ByteBuffer) : Nat := b.bytes.size - b.start

/-- Adds bytes. The read bytes are given up first if they are at least half of all. -/
def push (b : ByteBuffer) (more : ByteArray) : ByteBuffer :=
  if 0 < b.start ∧ b.bytes.size ≤ b.start * 2 then ⟨b.unread ++ more, 0⟩
  else ⟨b.bytes ++ more, b.start⟩

/-- Goes past some bytes, or past all if there are not so many. -/
def consume (b : ByteBuffer) (n : Nat) : ByteBuffer :=
  { b with start := min (b.start + n) b.bytes.size }

end ByteBuffer

namespace Backlog

variable {b : Backlog}

noncomputable def buffer (b : Backlog) : ByteBuffer := ⟨b.held.utf8Encode, b.offset⟩

theorem bytes_buffer (b : Backlog) :
    b.buffer.bytes = b.spent.reverse.utf8Encode ++ b.rest.utf8Encode :=
  List.utf8Encode_append

theorem start_buffer (b : Backlog) : b.buffer.start = b.spent.reverse.utf8Encode.size := by
  rw [size_utf8Encode, byteLength_reverse]
  rfl

theorem unread_buffer (b : Backlog) : b.buffer.unread = b.rest.utf8Encode := by
  rw [ByteBuffer.unread, bytes_buffer]
  exact ByteArray.extract_append_eq_right b.start_buffer ByteArray.size_append

theorem size_buffer (b : Backlog) : b.buffer.size = b.size := by
  rw [ByteBuffer.size, bytes_buffer, start_buffer, ByteArray.size_append, Nat.add_sub_cancel_left,
    size_utf8Encode]
  rfl

theorem isEmpty_iff_size_buffer (b : Backlog) : b.isEmpty = true ↔ b.buffer.size = 0 := by
  rw [size_buffer, size, isEmpty, List.isEmpty_iff]
  constructor
  · intro h
    rw [h]
    rfl
  · intro h
    cases hr : b.rest with
    | nil => rfl
    | cons c cs =>
      have hc : 0 < c.utf8Size := c.utf8Size_pos
      rw [hr, byteLength_cons] at h
      omega

theorem start_isValid (b : Backlog) :
    (⟨b.buffer.start⟩ : String.Pos.Raw).IsValid (String.ofList b.held) := by
  rw [String.Pos.Raw.isValid_iff_exists_append]
  exact ⟨.ofList b.spent.reverse, .ofList b.rest, String.ofList_append, by rw [start_buffer]; rfl⟩

/-- Text is pushed as its bytes are, at the same moments making room for them. -/
theorem buffer_push (b : Backlog) (text : List Char) :
    (b.push text).buffer = b.buffer.push text.utf8Encode := by
  have hsize : b.buffer.bytes.size = byteLength b.held := size_utf8Encode b.held
  have hstart : b.buffer.start = b.offset := rfl
  unfold push reclaim ByteBuffer.push
  rw [hsize, hstart, Nat.mul_comm 2]
  split
  · rw [unread_buffer, ← List.utf8Encode_append]
    rfl
  · rw [buffer, buffer, ← List.utf8Encode_append, held, held, List.append_assoc]
    rfl

/-- The text of the token is taken off the front of the backlog, as a slice of the unread bytes
between two characters. -/
structure Cut (b : Backlog) (t : Token) (b' : Backlog) : Prop where
  nonempty : t.text ≠ ""
  rest_eq : b.rest = t.text.toList ++ b'.rest
  inside : t.text.utf8ByteSize ≤ b.buffer.size
  boundary : (⟨t.text.utf8ByteSize⟩ : String.Pos.Raw).IsValid (String.ofList b.rest)
  slice_eq : b.buffer.unread.extract 0 t.text.utf8ByteSize = t.text.toByteArray
  buffer_eq : b'.buffer = b.buffer.consume t.text.utf8ByteSize
  start_eq : b'.buffer.start = b.buffer.start + t.text.utf8ByteSize

theorem start_consume (b : Backlog) (n : Nat) :
    (b.consume n).buffer.start = b.buffer.start + byteLength (b.rest.take n) := by
  change byteLength ((b.rest.take n).reverse ++ b.spent) = byteLength b.spent + _
  rw [byteLength_append, byteLength_reverse, Nat.add_comm]

theorem byteLength_take_le (cs : List Char) (n : Nat) : byteLength (cs.take n) ≤ byteLength cs := by
  have h : byteLength (cs.take n ++ cs.drop n) = byteLength cs := by rw [List.take_append_drop]
  rw [byteLength_append] at h
  omega

theorem buffer_consume (b : Backlog) (n : Nat) :
    (b.consume n).buffer = b.buffer.consume (byteLength (b.rest.take n)) := by
  have hstart := start_consume b n
  have hend : b.buffer.start + byteLength (b.rest.take n) ≤ b.buffer.bytes.size := by
    have hle := byteLength_take_le b.rest n
    have hsize := size_buffer b
    rw [ByteBuffer.size, size] at hsize
    have hvalid : b.buffer.start ≤ b.buffer.bytes.size := by
      rw [bytes_buffer, start_buffer, ByteArray.size_append]
      exact Nat.le_add_right _ _
    omega
  have hbytes : (b.consume n).buffer.bytes = b.buffer.bytes :=
    congrArg List.utf8Encode (held_consume b n)
  rw [ByteBuffer.consume, Nat.min_eq_left hend, ← hstart, ← hbytes]

theorem cut_consume {t : Token} {n : Nat} (ht : t.text = String.ofList (b.rest.take n))
    (hn : b.rest.take n ≠ []) : b.Cut t (b.consume n) := by
  have hsize : t.text.utf8ByteSize = byteLength (b.rest.take n) := by
    rw [ht, utf8ByteSize_ofList]
  have hbytes : t.text.toByteArray = (b.rest.take n).utf8Encode := by
    rw [ht]
    rfl
  have hsplit : b.rest = b.rest.take n ++ b.rest.drop n := (List.take_append_drop n b.rest).symm
  refine ⟨?_, ?_, ?_, ?_, ?_, ?_, ?_⟩
  · intro he
    apply hn
    rw [← String.toList_ofList (l := b.rest.take n), ← ht, he]
    rfl
  · rw [ht, String.toList_ofList]
    exact hsplit
  · rw [hsize, size_buffer]
    exact byteLength_take_le b.rest n
  · rw [String.Pos.Raw.isValid_iff_exists_append]
    refine ⟨t.text, .ofList (b.rest.drop n), ?_, rfl⟩
    rw [ht, ← String.ofList_append, ← hsplit]
  · rw [unread_buffer, hbytes, hsize]
    rw [← List.take_append_drop n b.rest, List.utf8Encode_append, List.take_append_drop]
    exact ByteArray.extract_append_eq_left (size_utf8Encode _).symm
  · rw [hsize]
    exact buffer_consume b n
  · rw [hsize]
    exact start_consume b n

end Backlog

namespace Lexer

variable {l l' : Lexer} {b b' : Backlog} {final : Bool} {progress : Progress}

/-- A call for a token leaves the backlog as it is, or takes the text of the token off it. -/
theorem parse_cut (h : l.parse b final = .ok (progress, l', b')) :
    (b' = b ∧ textOf Token.text l'.pending.toList = textOf Token.text l.pending.toList) ∨
      ∃ t, l.pending = none ∧ l'.pending = some t ∧ b.Cut t b' := by
  cases hs : l.source with
  | none =>
    unfold parse at h
    rw [hs] at h
    cases h
  | some source =>
    obtain ⟨progress', l₁, b₁, hok, hp⟩ := parse_parsed b final hs
    rw [hok] at h
    cases h
    cases hp with
    | pending => exact .inl ⟨rfl, rfl⟩
    | ended => exact .inl ⟨rfl, rfl⟩
    | starved => exact .inl ⟨rfl, rfl⟩
    | last hp =>
      rw [hp]
      exact .inl ⟨rfl, rfl⟩
    | token first cs found hp he hb hn =>
      obtain ⟨hpos, -⟩ := nextLexeme_length hn
      refine .inr ⟨_, hp, rfl, Backlog.cut_consume ?_ ?_⟩
      · rw [hb]
      · rw [hb]
        obtain ⟨n, hlength⟩ := Nat.exists_eq_succ_of_ne_zero (Nat.ne_of_gt hpos)
        rw [hlength]
        exact nofun

namespace Reading

variable {r : Reading}

def produced (r : Reading) : List Token := r.tokens ++ r.lexer.pending.toList

/-- What a call pushes comes behind the unread text; all other text stays, in the tokens or
unread. -/
theorem perform_text (r : Reading) (call : Call) :
    textOf Token.text (r.perform call).produced ++ (r.perform call).backlog.rest =
      textOf Token.text r.produced ++ r.backlog.rest ++ pushed [call] := by
  cases call with
  | push text =>
    change _ ++ (r.backlog.push text).rest = _ ++ (text ++ [])
    rw [Backlog.rest_push, List.append_nil, List.append_assoc]
    rfl
  | parse final =>
    have hpushed : pushed [.parse final] = [] := rfl
    rw [hpushed, List.append_nil]
    cases hr : r.lexer.parse r.backlog final with
    | error e =>
      have hsame : r.perform (.parse final) = r := by simp only [perform, hr]
      rw [hsame]
    | ok result =>
      obtain ⟨progress, l, b⟩ := result
      have hnext : r.perform (.parse final) = { r with lexer := l, backlog := b } := by
        simp only [perform, hr]
      rw [hnext, produced, produced, textOf_append, textOf_append]
      rcases parse_cut hr with ⟨hb, ht⟩ | ⟨t, hnone, hsome, hcut⟩
      · rw [hb, ht]
      · rw [hnone, hsome, hcut.rest_eq]
        simp
  | read =>
    have hpushed : pushed [.read] = [] := rfl
    rw [hpushed, List.append_nil]
    cases hp : r.lexer.pending with
    | none =>
      have hsame : r.perform .read = r := by simp only [perform, Lexer.read, hp]
      rw [hsame]
    | some t =>
      have hnext : r.perform .read =
          { r with lexer := r.lexer.emptied, tokens := r.tokens ++ [t] } := by
        simp only [perform, Lexer.read, hp]
        rfl
      have hproduced : (r.perform .read).produced = r.produced := by
        rw [hnext, produced, produced, hp]
        exact List.append_nil _
      rw [hproduced, hnext]

theorem performAll_text (r : Reading) (calls : List Call) :
    textOf Token.text (r.performAll calls).produced ++ (r.performAll calls).backlog.rest =
      textOf Token.text r.produced ++ r.backlog.rest ++ pushed calls := by
  induction calls generalizing r with
  | nil => exact (List.append_nil _).symm
  | cons call calls ih =>
    have hpushed : pushed (call :: calls) = pushed [call] ++ pushed calls := by
      cases call <;> simp [pushed]
    rw [hpushed, ← List.append_assoc, ← perform_text]
    exact ih (r.perform call)

end Reading

/-- Whatever is pushed and read, the unread text and the texts of the tokens produced make up the
text that was pushed. The bytes hold that text between two characters, and have its size. Text that
is pushed comes behind it and loses nothing of it, whether or not room is made. A call for a token
takes nothing off, or it takes the bytes of the token, which are there and end between two
characters, so that the place is not held back. -/
theorem buffer_refines_text (l : Lexer) (text : String) (calls : List Call)
    (hp : l.pending = none) :
    let r := Reading.performAll ⟨l, .ofText text, []⟩ calls
    let buffer := r.backlog.buffer
    text.toList ++ pushed calls = textOf Token.text r.produced ++ r.backlog.rest ∧
      (buffer.unread = r.backlog.rest.utf8Encode ∧
        (⟨buffer.start⟩ : String.Pos.Raw).IsValid (String.ofList r.backlog.held) ∧
        buffer.size = byteLength r.backlog.rest ∧ buffer.size = buffer.unread.size ∧
        (r.backlog.isEmpty = true ↔ buffer.size = 0)) ∧
      (∀ more, (r.backlog.push more).buffer = buffer.push more.utf8Encode ∧
        (buffer.push more.utf8Encode).unread = buffer.unread ++ more.utf8Encode) ∧
      ∀ final progress l' b', r.lexer.parse r.backlog final = .ok (progress, l', b') →
        (b' = r.backlog ∧
          textOf Token.text l'.pending.toList = textOf Token.text r.lexer.pending.toList) ∨
        ∃ t, r.lexer.pending = none ∧ l'.pending = some t ∧ r.backlog.Cut t b' := by
  intro r buffer
  have htext : textOf Token.text r.produced ++ r.backlog.rest =
      textOf Token.text l.pending.toList ++ text.toList ++ pushed calls :=
    Reading.performAll_text ⟨l, .ofText text, []⟩ calls
  rw [hp] at htext
  have hsize : buffer.size = byteLength r.backlog.rest := r.backlog.size_buffer
  have hunread : buffer.unread = r.backlog.rest.utf8Encode := r.backlog.unread_buffer
  refine ⟨htext.symm, ⟨hunread, r.backlog.start_isValid, hsize, ?_,
    r.backlog.isEmpty_iff_size_buffer⟩, ?_, ?_⟩
  · rw [hsize, hunread, size_utf8Encode]
  · intro more
    have hpush := r.backlog.buffer_push more
    refine ⟨hpush, ?_⟩
    rw [← hpush, Backlog.unread_buffer, Backlog.rest_push, List.utf8Encode_append, hunread]
  · intro final progress l' b' h
    exact parse_cut h

/-- Room is made for a text of several bytes, and its first token is taken off. -/
theorem buffer_refines_text_reclaimed :
    let l : Lexer := { Lexer.new .standard with source := some "in" }
    let calls : List Call := [.parse false, .read, .push ['é', ')'], .parse false]
    l.pending = none ∧ ∃ r, r = Reading.performAll ⟨l, .ofText "(", []⟩ calls ∧
      r.backlog.spent = ['é'] ∧ r.backlog.buffer.start = 2 ∧
      "(".toList ++ pushed calls = textOf Token.text r.produced ++ r.backlog.rest := by
  intro l calls
  have hp : l.pending = none := rfl
  have hspent : (Reading.performAll ⟨l, .ofText "(", []⟩ calls).backlog.spent = ['é'] := by decide
  obtain ⟨htext, -⟩ := buffer_refines_text l "(" calls hp
  refine ⟨hp, _, rfl, hspent, ?_, htext⟩
  rw [Backlog.start_buffer, size_utf8Encode, hspent]
  rfl

end Lexer

end TermStream
