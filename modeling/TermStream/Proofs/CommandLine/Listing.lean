import TermStream.CommandLine
import TermStream.Proofs.Standard.Runs
import TermStream.Proofs.Text.OneLine

namespace TermStream

open Text

namespace Term

variable {t : Term} {opened opened' : List TermKind}

/-- Going on by a term opens one range, closes the innermost one, or leaves them as they are. -/
theorem nest_cases (h : t.nest opened = some opened') :
    (t.kind.isStart = true ∧ t.kind.isEnd = false ∧ opened'.length = opened.length + 1) ∨
    (t.kind.isStart = false ∧ t.kind.isEnd = true ∧ opened = t.kind :: opened') ∨
    (t.kind.isStart = false ∧ t.kind.isEnd = false ∧ opened' = opened) := by
  rw [nest.eq_def] at h
  split at h
  · cases h
  · cases hk : t.kind.matchingEnd? with
    | some e =>
      rw [hk] at h
      cases h
      have hshape : t.kind.shape = .start := by simp [TermKind.shape, hk]
      exact .inl ⟨by simp [TermKind.isStart, hshape], by simp [TermKind.isEnd, hshape], rfl⟩
    | none =>
      have hstart : t.kind.isStart = false := by
        unfold TermKind.isStart TermKind.shape
        rw [hk]
        cases t.kind.matchingStart? <;> rfl
      rw [hk] at h
      dsimp only at h
      split at h
      · next hend =>
        cases opened with
        | nil => cases h
        | cons e opened =>
          dsimp only at h
          split at h
          · next he =>
            cases h
            exact .inr (.inl ⟨hstart, hend, he ▸ rfl⟩)
          · cases h
      · next hend =>
        cases h
        exact .inr (.inr ⟨hstart, Bool.eq_false_iff.2 hend, rfl⟩)

end Term

theorem nest_length {ts : List Term} {opened opened' : List TermKind}
    (h : ts.foldlM Term.nest opened = some opened') :
    opened'.length + ts.countP (fun t => t.kind.isEnd) =
      opened.length + ts.countP (fun t => t.kind.isStart) := by
  induction ts generalizing opened with
  | nil =>
    cases h
    rfl
  | cons t ts ih =>
    obtain ⟨mid, ht, hts⟩ := Option.bind_eq_some_iff.1 h
    have hrest := ih hts
    rw [List.countP_cons, List.countP_cons]
    rcases Term.nest_cases ht with ⟨hs, he, hl⟩ | ⟨hs, he, rfl⟩ | ⟨hs, he, rfl⟩
    · simp [hs, he]
      omega
    · simp [hs, he]
      omega
    · simp [hs, he]
      omega

namespace Listing

/-- The terms up to where a term is written: an end stands outside the range that it closes. -/
def upTo (earlier : List Term) (t : Term) : List Term :=
  if t.kind.isEnd then earlier ++ [t] else earlier

variable {trivia : Bool} {ts earlier later : List Term} {t : Term}
  {opened opened' : List TermKind}

theorem termsFrom_cons (h : t.nest opened = some opened') :
    termsFrom trivia opened.length (t :: ts) =
      (if trivia || !isTrivia t then
        [indent (if t.kind.isEnd then opened'.length else opened.length) ++ t.render] else []) ++
      termsFrom trivia opened'.length ts := by
  rw [termsFrom]
  rcases Term.nest_cases h with ⟨hs, he, hl⟩ | ⟨hs, he, rfl⟩ | ⟨hs, he, rfl⟩
  · simp [hs, he, hl]
  · simp [hs, he]
  · simp [hs, he]

theorem length_termsFrom (depth : Nat) (ts : List Term) :
    (termsFrom true depth ts).length = ts.length := by
  induction ts generalizing depth with
  | nil => rfl
  | cons t ts ih => simp [termsFrom, ih]

/-- The line of a term is indented by the ranges that are open where it is written. -/
theorem termsFrom_line (h : (earlier ++ t :: later).foldlM Term.nest opened = some opened') :
    ∃ outer, (upTo earlier t).foldlM Term.nest opened = some outer ∧
      (t.kind.isEnd = true → earlier.foldlM Term.nest opened = some (t.kind :: outer)) ∧
      (termsFrom true opened.length (earlier ++ t :: later))[earlier.length]? =
        some (indent outer.length ++ t.render) := by
  induction earlier generalizing opened with
  | nil =>
    obtain ⟨mid, ht, -⟩ := Option.bind_eq_some_iff.1 h
    rw [List.nil_append, termsFrom_cons ht, upTo]
    rcases Term.nest_cases ht with ⟨-, he, -⟩ | ⟨-, he, rfl⟩ | ⟨-, he, rfl⟩
    · exact ⟨opened, by simp [he], by simp [he], by simp [he]⟩
    · exact ⟨mid, by simp [he, ht], fun _ => rfl, by simp [he]⟩
    · exact ⟨mid, by simp [he], by simp [he], by simp [he]⟩
  | cons u earlier ih =>
    obtain ⟨mid, hu, hrest⟩ := Option.bind_eq_some_iff.1 h
    obtain ⟨outer, houter, hend, hline⟩ := ih hrest
    have hcons : ∀ us, (u :: us).foldlM Term.nest opened = us.foldlM Term.nest mid := by
      intro us
      rw [List.foldlM_cons, hu]
      rfl
    refine ⟨outer, ?_, fun he => (hcons earlier).trans (hend he), ?_⟩
    · rw [upTo] at houter ⊢
      split
      · next he =>
        rw [if_pos he] at houter
        exact (hcons _).trans houter
      · next he =>
        rw [if_neg he] at houter
        exact (hcons _).trans houter
    · rw [List.cons_append, termsFrom_cons hu]
      simpa using hline

theorem isTrivia_iff : isTrivia t = true ↔
    t.kind = .ignorable ∧ (t.role = .ignorable ∨ t.role = .documentation) := by
  simp [isTrivia]

/-- Without trivia a listing has the lines of the other terms, on the same depths. -/
theorem termsFrom_false (depth : Nat) (ts : List Term) :
    termsFrom false depth ts =
      ((ts.zip (termsFrom true depth ts)).filter fun x =>
        ¬(x.1.kind = .ignorable ∧ (x.1.role = .ignorable ∨ x.1.role = .documentation))).map
          Prod.snd := by
  simp only [← isTrivia_iff]
  induction ts generalizing depth with
  | nil => rfl
  | cons t ts ih =>
    rw [termsFrom, termsFrom, ih]
    cases ht : isTrivia t <;> simp [ht]

theorem exists_of_mem_termsFrom {depth : Nat} {line : String}
    (h : line ∈ termsFrom trivia depth ts) : ∃ d, ∃ t ∈ ts, line = indent d ++ t.render := by
  induction ts generalizing depth with
  | nil => cases h
  | cons t ts ih =>
    rw [termsFrom] at h
    rcases List.mem_append.1 h with hline | hrest
    · split at hline
      · obtain rfl := List.mem_singleton.1 hline
        exact ⟨_, t, List.mem_cons_self, rfl⟩
      · cases hline
    · obtain ⟨d, u, hu, rfl⟩ := ih hrest
      exact ⟨d, u, List.mem_cons_of_mem t hu, rfl⟩

theorem indent_oneLine (depth : Nat) : OneLine (indent depth).toList := by
  rw [indent, String.toList_ofList]
  intro c hc
  obtain rfl := List.eq_of_mem_replicate hc
  decide

end Listing

theorem Term.PlainlyNamed.oneLine {t : Term} (h : t.PlainlyNamed) : OneLine t.render.toList := by
  apply t.render_oneLine
  intro name hname
  rcases h name hname with rfl | ⟨property, rfl⟩
  · decide
  · cases property <;> decide

namespace CommandLine

variable {options : Options}

theorem termsOf_eq {fuel : Nat} {name text : String} {ts : List Term} :
    termsOf fuel name text options = .ok ts ↔ ∃ transcript,
      Pipeline.run fuel name text options.settings
        (if options.script then some (.standard true) else none) .standard = .ok transcript ∧
      transcript.terms.toList = ts := by
  rw [termsOf]
  cases Pipeline.run fuel name text options.settings
      (if options.script then some (.standard true) else none) .standard with
  | error e => simp [bind, Except.bind]
  | ok transcript => simp [bind, Except.bind, pure, Except.pure]

theorem isStandard_of_script (options : Options) (g : Grammar)
    (h : (if options.script then some (Grammar.standard true) else none) = some g) :
    g.IsStandard := by
  split at h
  · cases h
    exact Grammar.isStandard_standard true
  · cases h

/-- A source always has terms, and their listing has one line for each, without a line break in it.
Each line is indented by two spaces for each start that is open there, where an end is outside its
start, and there is always an open start to end. The end of the input comes last and is not
indented. Without trivia the listing has the same lines except those of trivia. -/
theorem listing_faithful (name text : String) (options : Options) :
    (∃ n, ∀ fuel ≥ n, ∃ ts, termsOf fuel name text options = .ok ts) ∧
    ∀ fuel ts, termsOf fuel name text options = .ok ts →
      let lines := Listing.ofTerms ts true
      lines.length = ts.length ∧
      (∀ line ∈ lines, OneLine line.toList) ∧
      (∀ earlier t later, ts = earlier ++ t :: later →
        ∃ outer, nest (Listing.upTo earlier t) = some outer ∧
          (t.kind.isEnd = true → nest earlier = some (t.kind :: outer)) ∧
          outer.length + (Listing.upTo earlier t).countP (fun t => t.kind.isEnd) =
            (Listing.upTo earlier t).countP (fun t => t.kind.isStart) ∧
          lines[earlier.length]? = some (Listing.indent outer.length ++ t.render)) ∧
      (∃ init last, ts = init ++ [last] ∧ last.kind = .eof ∧ (∀ t ∈ init, t.kind ≠ .eof) ∧
        lines.getLast? = some last.render) ∧
      Listing.ofTerms ts false =
        ((ts.zip lines).filter fun x =>
          ¬(x.1.kind = .ignorable ∧ (x.1.role = .ignorable ∨ x.1.role = .documentation))).map
            Prod.snd := by
  constructor
  · obtain ⟨n, hn⟩ :=
      Pipeline.exists_standard_run name text options.settings (isStandard_of_script options)
    refine ⟨n, fun fuel hle => ?_⟩
    obtain ⟨transcript, hr⟩ := hn fuel hle
    exact ⟨_, termsOf_eq.2 ⟨transcript, hr, rfl⟩⟩
  · intro fuel ts hts
    obtain ⟨transcript, hr, rfl⟩ := termsOf_eq.1 hts
    obtain ⟨⟨init, last, hall, hlast, hinit, hnest, hnest'⟩, hnamed⟩ :=
      Pipeline.standard_run_sound (isStandard_of_script options) hr
    generalize transcript.terms.toList = ts at hall hnest' hnamed
    intro lines
    have hlength : lines.length = ts.length := Listing.length_termsFrom 0 ts
    refine ⟨hlength, ?_, ?_, ⟨init, last, hall, hlast, hinit, ?_⟩, Listing.termsFrom_false 0 ts⟩
    · intro line hline
      obtain ⟨d, t, ht, rfl⟩ := Listing.exists_of_mem_termsFrom hline
      rw [String.toList_append]
      exact oneLine_append.2 ⟨Listing.indent_oneLine d, (hnamed t ht).oneLine⟩
    · rintro earlier t later rfl
      obtain ⟨outer, houter, hend, hline⟩ := Listing.termsFrom_line hnest'
      have hcount := nest_length houter
      rw [List.length_nil, Nat.zero_add] at hcount
      exact ⟨outer, houter, hend, hcount, hline⟩
    · subst hall
      obtain ⟨outer, houter, -, hline⟩ := Listing.termsFrom_line hnest'
      rw [Listing.upTo, hlast] at houter
      cases hnest.symm.trans houter
      have hindex : lines.length - 1 = init.length := by
        rw [hlength, List.length_append]
        rfl
      rw [List.getLast?_eq_getElem?, hindex]
      refine hline.trans (congrArg some ?_)
      exact String.empty_append

/-- A line break at the start of a block that is not closed. The listing without trivia lacks its
line. -/
theorem listing_faithful_block : ∃ ts, termsOf 200 "in" "\x7b\na" .none = .ok ts ∧
    Listing.ofTerms ts true = ["GRAMMAR_IS_LOADED @1:1", "STATEMENT_START @1:1",
      "  BLOCK_START \"\x7b\" [separator] @1:1", "    STATEMENT_START @1:2",
      "      IGNORABLE \"\\n\" [ignorable] @1:2", "      VALUE \"a\" [primary] @2:1",
      "    STATEMENT_END @2:2", "  BLOCK_END [separator] @2:2", "STATEMENT_END @2:2",
      "EOF \"\" @2:2"] ∧
    ts.length = 10 ∧ (Listing.ofTerms ts true).getLast? = some "EOF \"\" @2:2" ∧
    Listing.ofTerms ts false =
      ((ts.zip (Listing.ofTerms ts true)).filter fun x =>
        ¬(x.1.kind = .ignorable ∧ (x.1.role = .ignorable ∨ x.1.role = .documentation))).map
          Prod.snd := by
  have hpieces :
      Text.pieces Options.none.settings.chunkSize "\x7b\na".toList = ["\x7b\na".toList] :=
    Text.pieces_of_cut rfl
  have hlines : ((termsOf 200 "in" "\x7b\na" .none).toOption.map fun ts =>
      Listing.ofTerms ts true) = some ["GRAMMAR_IS_LOADED @1:1", "STATEMENT_START @1:1",
      "  BLOCK_START \"\x7b\" [separator] @1:1", "    STATEMENT_START @1:2",
      "      IGNORABLE \"\\n\" [ignorable] @1:2", "      VALUE \"a\" [primary] @2:1",
      "    STATEMENT_END @2:2", "  BLOCK_END [separator] @2:2", "STATEMENT_END @2:2",
      "EOF \"\" @2:2"] := by
    rw [termsOf, Pipeline.run, hpieces]
    decide +kernel
  cases hts : termsOf 200 "in" "\x7b\na" .none with
  | error e =>
    rw [hts] at hlines
    cases hlines
  | ok ts =>
    rw [hts] at hlines
    have hlisted : Listing.ofTerms ts true = _ := Option.some.inj hlines
    obtain ⟨hlength, -, -, -, hfalse⟩ := (listing_faithful "in" "\x7b\na" .none).2 200 ts hts
    rw [hlisted] at hlength
    exact ⟨ts, rfl, hlisted, hlength.symm, by rw [hlisted]; rfl, hfalse⟩

end CommandLine

end TermStream
