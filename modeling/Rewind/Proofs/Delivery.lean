import Mathlib.Algebra.Ring.Nat
import Rewind.Proofs.Transcript

/-!
# Text delivered in any pieces

The bytes of a device are lines, each with the line feed that ends it (`byteLines`). A line feed is
a sequence of its own (`decode_feed`), so that bytes are text exactly if all their lines are. The
lines before the first that is no text are what can be read of them (`legible`), and this is what a
reader hands out: whatever the pulls, each brings what is asked for as long as there is so much left
(`callAll_due`). A reader that was asked for more is finished, and no other (`callAll_finished`),
and only a finished reader knows of a line that is no text.
-/
namespace Rewind

/-! ## Lines of bytes -/

namespace Utf8

theorem isTail_lineFeed : isTail BufferedDevice.lineFeed = false := rfl

theorem second_lineFeed (a : UInt8) : secondOfThree a BufferedDevice.lineFeed = false ∧
    secondOfFour a BufferedDevice.lineFeed = false := by
  constructor
  · simp [secondOfThree, BufferedDevice.lineFeed, isTail]
  · simp [secondOfFour, BufferedDevice.lineFeed, isTail]

/-- A line feed is no part of a longer sequence: the bytes before it and those after it are
decoded apart. -/
theorem decode_feed (before rest : List UInt8) :
    decode (before ++ BufferedDevice.lineFeed :: rest) =
      (decode before).bind fun s => (decode rest).map (s ++ '\n' :: ·) := by
  fun_induction decode before with
  | case1 =>
    have hone : BufferedDevice.lineFeed < 0x80 := by decide
    simp only [List.nil_append, decode.eq_def (BufferedDevice.lineFeed :: rest), if_pos hone,
      Option.bind_some]
    rfl
  | case2 a before hone ih =>
    simp only [List.cons_append, decode.eq_def (a :: (before ++ _)), if_pos hone, ih]
    cases decode before <;> cases decode rest <;> rfl
  | case3 a hone =>
    simp only [List.cons_append, List.nil_append,
      decode.eq_def (a :: BufferedDevice.lineFeed :: rest)]
    cases rest with
    | nil => simp [hone, isTail_lineFeed]
    | cons c rest => cases rest <;> simp [hone, isTail_lineFeed, second_lineFeed]
  | case4 a hone b before htwo ih =>
    simp only [List.cons_append, decode.eq_def (a :: b :: (before ++ _)), if_neg hone,
      if_pos htwo, ih]
    cases decode before <;> cases decode rest <;> rfl
  | case5 a hone b htwo =>
    simp only [List.cons_append, List.nil_append,
      decode.eq_def (a :: b :: BufferedDevice.lineFeed :: rest)]
    cases rest <;> simp [hone, htwo, isTail_lineFeed]
  | case6 a hone b htwo c before hthree ih =>
    simp only [List.cons_append, decode.eq_def (a :: b :: c :: (before ++ _)), if_neg hone,
      if_neg htwo, if_pos hthree,
      ih]
    cases decode before <;> cases decode rest <;> rfl
  | case7 a hone b htwo c hthree =>
    simp only [List.cons_append, List.nil_append,
      decode.eq_def (a :: b :: c :: BufferedDevice.lineFeed :: rest)]
    simp [hone, htwo, hthree, isTail_lineFeed]
  | case8 a hone b htwo c hthree d before hfour ih =>
    simp only [List.cons_append, decode.eq_def (a :: b :: c :: d :: (before ++ _)), if_neg hone,
      if_neg htwo, if_neg hthree, if_pos hfour, ih]
    cases decode before <;> cases decode rest <;> rfl
  | case9 a hone b htwo c hthree d before hfour =>
    simp only [List.cons_append, decode.eq_def (a :: b :: c :: d :: (before ++ _)), if_neg hone,
      if_neg htwo, if_neg hthree, if_neg hfour, Option.bind_none]

/-- A line is decoded apart from what comes after it. -/
theorem decode_line {line : List UInt8} (h : IsLine line) (rest : List UInt8) :
    decode (line ++ rest) = (decode line).bind fun s => (decode rest).map (s ++ ·) := by
  obtain ⟨before, -, rfl⟩ := h
  rw [List.append_assoc, List.singleton_append, decode_feed, decode_feed]
  cases decode before with
  | none => rfl
  | some s => cases decode rest <;> simp [decode]

end Utf8

/-- The bytes through each line feed, and those after the last. -/
def byteLines : List UInt8 → List (List UInt8)
  | [] => []
  | b :: rest =>
    if b = BufferedDevice.lineFeed then [b] :: byteLines rest
    else
      match byteLines rest with
      | [] => [[b]]
      | line :: more => (b :: line) :: more

/-- The bytes before the first line that is no text. -/
def legible (bytes : List UInt8) : List UInt8 :=
  ((byteLines bytes).takeWhile fun line => (Utf8.decode line).isSome).flatten

theorem byteLines_line {line : List UInt8} (h : IsLine line) (rest : List UInt8) :
    byteLines (line ++ rest) = line :: byteLines rest := by
  obtain ⟨before, plain, rfl⟩ := h
  induction before with
  | nil => simp [byteLines]
  | cons b before ih =>
    obtain ⟨hb, hbefore⟩ := List.ne_and_not_mem_of_not_mem_cons plain
    simp only [List.cons_append, byteLines, if_neg (Ne.symm hb), ih hbefore]

theorem byteLines_last {line : List UInt8} (plain : BufferedDevice.lineFeed ∉ line)
    (some_bytes : line ≠ []) :
    byteLines line = [line] := by
  induction line with
  | nil => contradiction
  | cons b line ih =>
    obtain ⟨hb, hline⟩ := List.ne_and_not_mem_of_not_mem_cons plain
    cases line with
    | nil => simp [byteLines, Ne.symm hb]
    | cons c line =>
      rw [byteLines, if_neg (Ne.symm hb), ih hline (List.cons_ne_nil c line)]

/-- The first line that is read is the first of the lines. -/
theorem byteLines_first {bytes line : List UInt8} {left : List (Except ReadError UInt8)}
    (h : firstLine (bytes.map .ok) = (.ok line, left)) (some_bytes : line ≠ []) :
    ∃ rest, left = rest.map .ok ∧ bytes = line ++ rest ∧ byteLines bytes = line :: byteLines rest ∧
      (IsLine line ∨ rest = []) := by
  obtain ⟨hsplit, hline⟩ := firstLine_ok h
  obtain ⟨first, rest, rfl, hfirst, rfl⟩ := List.map_eq_append_iff.mp hsplit
  obtain rfl : first = line := (List.map_inj_right fun _ _ => Except.ok.inj).mp hfirst
  refine ⟨rest, rfl, rfl, ?_⟩
  rcases hline with hline | ⟨hnil, hplain⟩
  · exact ⟨byteLines_line hline rest, Or.inl hline⟩
  · obtain rfl : rest = [] := List.map_eq_nil_iff.mp hnil
    rw [List.append_nil, byteLines_last hplain some_bytes]
    exact ⟨rfl, Or.inr rfl⟩

/-- What bytes tell is what can be read of them, and there is a failure exactly if a
line is no text. -/
theorem Tells.legible {bytes : List UInt8} {text : List Char} {failure : Option ReadError}
    (tells : Tells (bytes.map .ok) text failure) :
    Utf8.decode (legible bytes) = some text ∧
      (failure = none ∧ Utf8.decode bytes = some text ∧
        (∀ line ∈ byteLines bytes, Utf8.decode line ≠ none) ∨
        failure = some .invalidUtf8 ∧ Utf8.decode bytes = none ∧
          ∃ line ∈ byteLines bytes, Utf8.decode line = none) := by
  generalize hcontents : bytes.map Except.ok = contents at tells
  induction tells generalizing bytes with
  | ended h =>
    subst hcontents
    obtain ⟨hsplit, hline⟩ := firstLine_ok h
    have hnil : bytes = [] := by
      rcases hline with ⟨before, -, hfeed⟩ | ⟨rfl, -⟩
      · simp at hfeed
      · simpa using hsplit
    subst hnil
    exact ⟨rfl, Or.inl ⟨rfl, rfl, by simp [byteLines]⟩⟩
  | failed h =>
    subst hcontents
    obtain ⟨before, -, hsplit⟩ := firstLine_error h
    have herror : Except.error _ ∈ bytes.map Except.ok :=
      hsplit ▸ List.mem_append_right _ List.mem_cons_self
    simp at herror
  | garbled h hdecode =>
    rename_i line
    subst hcontents
    have hsome : line ≠ [] := by
      rintro rfl
      cases hdecode
    obtain ⟨rest, -, rfl, hlines, hline⟩ := byteLines_first h hsome
    refine ⟨by simp [Rewind.legible, hlines, hdecode, Utf8.decode],
      Or.inr ⟨rfl, ?_, line, by simp [hlines], hdecode⟩⟩
    rcases hline with hline | rfl
    · rw [Utf8.decode_line hline, hdecode]
      rfl
    · rwa [List.append_nil]
  | line h hsome hdecode _ ih =>
    rename_i line first text failure _
    subst hcontents
    obtain ⟨rest, rfl, rfl, hlines, hline⟩ := byteLines_first h hsome
    obtain ⟨htext, hrest⟩ := ih rfl
    constructor
    · rw [Rewind.legible, hlines, List.takeWhile_cons_of_pos (by simp [hdecode]), List.flatten_cons]
      exact Utf8.decode_append hdecode htext
    rw [hlines]
    rcases hrest with ⟨hnone, hall, hgood⟩ | ⟨hsome, hall, bad, hbad, hnone⟩
    · refine Or.inl ⟨hnone, Utf8.decode_append hdecode hall, ?_⟩
      exact List.forall_mem_cons.mpr ⟨by simp [hdecode], hgood⟩
    · refine Or.inr ⟨hsome, ?_, bad, List.mem_cons_of_mem _ hbad, hnone⟩
      rcases hline with hline | rfl
      · rw [Utf8.decode_line hline, hdecode, hall]
        rfl
      · cases hall

/-! ## Calls of a reader -/

namespace LineReader

/-- What can be asked of a reader. -/
inductive Call where
  | pull (max : Nat)
  | takeFailure

/-- The number of symbols that are asked for. -/
def Call.asked : Call → Nat
  | .pull max => max
  | .takeFailure => 0

/-- Each call hands out some symbols. -/
def call (r : LineReader) : Call → List Char × LineReader
  | .pull max => ((Source.pull r max).symbols, (Source.pull r max).source)
  | .takeFailure => ([], r.takeFailure.2)

/-- Makes calls in order and puts together what they hand out. -/
def callAll (r : LineReader) : List Call → List Char × LineReader
  | [] => ([], r)
  | first :: rest =>
    match r.call first with
    | (sent, r) => match r.callAll rest with | (more, r) => (sent ++ more, r)

def askedAll (calls : List Call) : Nat := (calls.map Call.asked).sum

variable {r : LineReader} {text : List Char} {failure : Option ReadError}

theorem askedAll_append (before later : List Call) :
    askedAll (before ++ later) = askedAll before + askedAll later := by
  simp [askedAll]

theorem askedAll_takeFailure (later : List Call) :
    askedAll (.takeFailure :: later) = askedAll later := by
  simp [askedAll, Call.asked]

theorem askedAll_pull (max : Nat) (later : List Call) :
    askedAll (.pull max :: later) = max + askedAll later :=
  rfl

theorem callAll_cons (r : LineReader) (first : Call) (rest : List Call) :
    r.callAll (first :: rest) =
      ((r.call first).1 ++ ((r.call first).2.callAll rest).1, ((r.call first).2.callAll rest).2) :=
        rfl

/-- Only a finished reader has a failure. -/
theorem Due.failure_eq (due : r.Due failure text) :
    r.failure = if r.finished = true then failure else none := by
  rcases due.tells with ⟨hfinished, -, -, hfailure⟩ | ⟨hgoing, hfailure, -⟩
  · simp [hfinished, hfailure]
  · simp [hgoing, hfailure]

/-- Taking the failure leaves what is due. -/
theorem takeFailure_due (due : r.Due failure text) :
    ∃ other, (other = failure ∨ other = none) ∧ r.takeFailure.2.Due other text := by
  obtain ⟨works, ⟨hfinished, hline, htext, hfailure⟩ | ⟨hgoing, hfailure, hmore⟩⟩ := due
  · exact ⟨none, Or.inr rfl, works, Or.inl ⟨hfinished, hline, htext, rfl⟩⟩
  · exact ⟨failure, Or.inl rfl, works, Or.inr ⟨hgoing, rfl, hmore⟩⟩

/-- Whatever is called, a reader hands out the text as far as it is asked for, and the
rest is due. -/
theorem callAll_due (calls : List Call) (due : r.Due failure text) :
    (r.callAll calls).1 = text.take (askedAll calls) ∧
      ∃ other, (other = failure ∨ other = none ∧ .takeFailure ∈ calls) ∧
        (r.callAll calls).2.Due other (text.drop (askedAll calls)) := by
  induction calls generalizing r text failure with
  | nil => exact ⟨rfl, failure, Or.inl rfl, due⟩
  | cons first rest ih =>
    rw [callAll_cons]
    cases first with
    | pull max =>
      obtain ⟨hsymbols, hdue⟩ := pull_due max r text due
      obtain ⟨hrest, other, hother, hafter⟩ := ih hdue
      rw [askedAll_pull]
      constructor
      · rw [List.take_add]
        exact congr (congrArg HAppend.hAppend hsymbols) hrest
      · rw [← List.drop_drop]
        exact ⟨other, by simpa using hother, hafter⟩
    | takeFailure =>
      obtain ⟨kept, hkept, hdue⟩ := takeFailure_due due
      obtain ⟨hrest, other, hother, hafter⟩ := ih hdue
      rw [askedAll_takeFailure]
      refine ⟨hrest, other, ?_, hafter⟩
      rcases hother with rfl | ⟨rfl, -⟩
      · exact hkept.imp id fun hnone => ⟨hnone, List.mem_cons_self⟩
      · exact Or.inr ⟨rfl, List.mem_cons_self⟩

/-- After any calls a pull brings what comes next in the text. -/
theorem pull_after (calls : List Call) (due : r.Due failure text) (max : Nat) :
    ((r.callAll calls).2.call (.pull max)).1 = (text.drop (askedAll calls)).take max := by
  obtain ⟨-, other, -, hafter⟩ := callAll_due calls due
  exact (pull_due max _ _ hafter).1

/-- A pull finishes the reader exactly if it asks for more than is due. -/
theorem pull_finished_iff (want : Nat) (r : LineReader) : ∀ text, r.Due failure text →
    ((pull want r).source.finished = true ↔ r.finished = true ∨ text.length < want) := by
  fun_induction pull want r with
  | case1 r => simp
  | case2 want r finished => simp [finished]
  | case3 want r going c rest line p ih =>
    intro text due
    obtain ⟨more, rfl, hmore⟩ := due.symbol line
    simpa using ih more hmore
  | case4 want r going line notices r' next nothing =>
    intro text due
    have hfinished : r'.finished = true := by
      simpa [next] using nextLine_finished (r := r) (by simpa [next] using nothing)
    have hdue := nextLine_due due (by simpa using going) line
    rw [next] at hdue
    obtain ⟨rfl, -⟩ := hdue.finished hfinished
    simp [hfinished]
  | case5 want r going line notices r' next c rest line' p ih =>
    intro text due
    have hdue := nextLine_due due (by simpa using going) line
    rw [next] at hdue
    obtain ⟨more, rfl, hmore⟩ := hdue.symbol line'
    -- A finished reader has no symbol left.
    have hgoing : ¬ r'.finished = true := fun hfinished =>
      List.cons_ne_nil _ _ (hdue.finished hfinished).1
    have hrest : p.source.finished = true ↔ r'.finished = true ∨ more.length < want := ih more hmore
    simpa [going, hgoing] using hrest

/-- A reader is finished once it was asked for more than there is, and not before. -/
theorem callAll_finished (calls : List Call) (due : r.Due failure text) :
    (r.callAll calls).2.finished = true ↔ r.finished = true ∨ text.length < askedAll calls := by
  induction calls generalizing r text failure with
  | nil => simp [callAll, askedAll]
  | cons first rest ih =>
    cases first with
    | pull max =>
      change ((r.call (.pull max)).2.callAll rest).2.finished = true ↔ _
      have hfirst : (r.call (.pull max)).2.finished = true ↔ r.finished = true ∨
          text.length < max :=
        pull_finished_iff max r text due
      have hrest := ih (r := (r.call (.pull max)).2) (pull_due max r text due).2
      rw [hrest, hfirst, askedAll_pull, List.length_drop, or_assoc]
      refine or_congr_right ?_
      omega
    | takeFailure =>
      obtain ⟨other, -, hdue⟩ := takeFailure_due due
      rw [askedAll_takeFailure]
      exact ih hdue

/-- Some pull asked for more than there was left of the text. -/
def Overdrawn (r : LineReader) (text : List Char) (calls : List Call) : Prop :=
  ∃ before max later, calls = before ++ .pull max :: later ∧
  text.length - (r.callAll before).1.length < max

/-- Where more is asked for than there is, one of the pulls goes too far. -/
theorem exists_pull_beyond {length : Nat} (calls before : List Call)
    (within : askedAll before ≤ length) (beyond : length < askedAll (before ++ calls)) :
    ∃ earlier max later, before ++ calls = earlier ++ .pull max :: later ∧
    askedAll earlier ≤ length ∧
      length < askedAll earlier + max := by
  induction calls generalizing before with
  | nil =>
    rw [List.append_nil] at beyond
    omega
  | cons first rest ih =>
    by_cases hfirst : askedAll (before ++ [first]) ≤ length
    · rw [List.append_cons] at beyond ⊢
      exact ih _ hfirst beyond
    · cases first with
      | pull max =>
        rw [askedAll_append, askedAll_pull] at hfirst
        exact ⟨before, max, rest, rfl, within, by simpa [askedAll] using hfirst⟩
      | takeFailure =>
        exact absurd within (by simpa [askedAll, Call.asked] using hfirst)

theorem overdrawn_iff (due : r.Due failure text) (calls : List Call) :
    r.Overdrawn text calls ↔ text.length < askedAll calls := by
  have hsent : ∀ before : List Call,
      (r.callAll before).1.length = min (askedAll before) text.length := by
    intro before
    rw [(callAll_due before due).1, List.length_take]
  constructor
  · rintro ⟨before, max, later, rfl, hless⟩
    rw [hsent] at hless
    rw [askedAll_append, askedAll_pull]
    omega
  · intro hless
    obtain ⟨before, max, later, rfl, hwithin, hbeyond⟩ :=
      exists_pull_beyond calls [] (Nat.zero_le _) hless
    refine ⟨before, max, later, rfl, ?_⟩
    rw [hsent]
    omega

end LineReader

/-- No read fails for good. -/
def Segment.Quiet (segments : List Segment) : Prop :=
  ∀ error, Segment.fault error ∈ segments → error.kind = .interrupted

theorem Segment.contents_quiet {segments : List Segment} (quiet : Segment.Quiet segments) :
    Segment.contents segments = (Segment.bytes segments).map .ok := by
  fun_induction Segment.contents segments with
  | case1 => rfl
  | case2 here rest ih =>
    have hrest := ih fun error h => quiet error (List.mem_cons_of_mem _ h)
    simp [Segment.bytes, hrest]
  | case3 error rest interrupted ih =>
    exact ih fun other h => quiet other (List.mem_cons_of_mem _ h)
  | case4 error rest other ih => exact absurd (quiet error List.mem_cons_self) other

/-- Whatever the pieces in which the bytes come, the interruptions between them and the room in the
buffer, a reader hands out the text of the lines before the first that is no text, of all the bytes
if they are text. Whatever was called, what it has handed out is the beginning of that text, and the
next pull brings as much of the rest as it asks for, or all of it. Unless its failure has been
taken, the reader knows of a line that is no text exactly if there is one and a pull has asked for
more than there was left; text leaves no failure. After a pull that brought less than it asked for
there is nothing more to be had. -/
theorem pulls_deliver_text {segments : List Segment} (proper : Segment.Proper segments)
    (quiet : Segment.Quiet segments) {capacity : Nat} (roomy : 1 ≤ capacity) :
    let bytes := Segment.bytes segments
    let reader := LineReader.ofSegments segments capacity
    ∃ text : List Char, Utf8.decode (legible bytes) = some text ∧
      (∀ all, Utf8.decode bytes = some all → text = all) ∧
      ∀ calls : List LineReader.Call,
        let sent := (reader.callAll calls).1
        let now := (reader.callAll calls).2
        let garbled := (∃ line ∈ byteLines bytes, Utf8.decode line = none) ∧
        reader.Overdrawn text calls
        sent <+: text ∧
        (∀ max, (now.call (.pull max)).1 = (text.drop sent.length).take max ∧
          (now.call (.pull max)).1.length = min max (text.length - sent.length)) ∧
        (.takeFailure ∉ calls → (now.failure = some .invalidUtf8 ↔ garbled) ∧
          (now.failure = none ↔ ¬ garbled)) ∧
        (Utf8.decode bytes ≠ none → now.failure = none) ∧
        ∀ before max later, calls = before ++ .pull max :: later →
          ((reader.callAll before).2.call (.pull max)).1.length < max →
          ∀ more, (now.call (.pull more)).1 = [] := by
  intro bytes reader
  obtain ⟨text, failure, htells⟩ := exists_tells (Segment.contents segments)
  have hdue : reader.Due failure text := ⟨⟨roomy, proper⟩, Or.inr ⟨rfl, rfl, text, rfl, htells⟩⟩
  rw [Segment.contents_quiet quiet] at htells
  obtain ⟨htext, hlines⟩ := htells.legible
  refine ⟨text, htext, ?_, ?_⟩
  · intro all hall
    rcases hlines with ⟨-, hbytes, -⟩ | ⟨-, hnone, -⟩
    · exact Option.some.inj (hbytes.symm.trans hall)
    · cases hnone.symm.trans hall
  intro calls sent now garbled
  obtain ⟨hsent, other, hother, hafter⟩ : sent = text.take (LineReader.askedAll calls) ∧ ∃ other,
      (other = failure ∨ other = none ∧ .takeFailure ∈ calls) ∧
      now.Due other (text.drop (LineReader.askedAll calls)) :=
    LineReader.callAll_due calls hdue
  have hfinished : now.finished = true ↔ text.length < LineReader.askedAll calls := by
    rw [LineReader.callAll_finished calls hdue]
    simp [reader, LineReader.ofSegments]
  have hfailure : now.failure = if text.length < LineReader.askedAll calls then other
      else none := by
    rw [hafter.failure_eq]
    exact if_congr hfinished rfl rfl
  have hgarbled : garbled ↔ failure = some .invalidUtf8 ∧
      text.length < LineReader.askedAll calls := by
    refine and_congr ?_ (LineReader.overdrawn_iff hdue calls)
    rcases hlines with ⟨rfl, -, hgood⟩ | ⟨rfl, -, hbad⟩
    · simpa using hgood
    · simpa using hbad
  refine ⟨hsent ▸ List.take_prefix _ _, ?_, ?_, ?_, ?_⟩
  · intro max
    have hrest : text.drop sent.length = text.drop (LineReader.askedAll calls) := by
      rw [hsent, List.length_take, ← List.drop_eq_drop_min]
    rw [LineReader.pull_after calls hdue, ← hrest]
    simp
  · intro untaken
    obtain rfl : other = failure := hother.resolve_right fun h => untaken h.2
    rw [hfailure, hgarbled]
    rcases hlines with ⟨rfl, -⟩ | ⟨rfl, -⟩
    · simp
    · simp
  · intro whole
    rcases hlines with ⟨rfl, -⟩ | ⟨-, hnone, -⟩
    · obtain rfl : other = none := hother.elim id And.left
      rw [hfailure, ite_self]
    · exact absurd hnone whole
  · rintro before max later rfl hless more
    -- The pull asked for more than was left of the text, and so have all the calls together.
    have hbeyond : text.length ≤ LineReader.askedAll (before ++ .pull max :: later) := by
      rw [LineReader.pull_after before hdue] at hless
      rw [LineReader.askedAll_append, LineReader.askedAll_pull]
      simp at hless
      omega
    rw [LineReader.pull_after _ hdue, List.drop_of_length_le hbeyond, List.take_nil]

/-- Two lines and a third that breaks off within a character, in pieces that break the first
character as well. -/
theorem pulls_deliver_text_garbled :
    let segments : List Segment :=
      [.data [195], .fault ⟨.interrupted, ""⟩, .data [164, 10, 98, 10], .data [226]]
    let reader := LineReader.ofSegments segments 2
    ((reader.callAll [.pull 3]).2.call (.pull 5)).1 = ['\n'] ∧
      (reader.callAll [.pull 3]).2.failure = none ∧
      (reader.callAll [.pull 3, .pull 5]).2.failure = some .invalidUtf8 ∧
      ((reader.callAll [.pull 3, .pull 5, .takeFailure]).2.call (.pull 1)).1 = [] := by
  intro segments reader
  have proper : Segment.Proper segments := by simp [Segment.Proper, segments]
  have quiet : Segment.Quiet segments := by simp [Segment.Quiet, segments]
  obtain ⟨text, htext, -, hcalls⟩ := pulls_deliver_text proper quiet (show 1 ≤ 2 by decide)
  obtain rfl : ['ä', '\n', 'b', '\n'] = text := Option.some.inj (Eq.trans (by decide +kernel) htext)
  have garbled : ∃ line ∈ byteLines (Segment.bytes segments), Utf8.decode line = none :=
    ⟨[226], by decide, by decide⟩
  have within : ¬ reader.Overdrawn ['ä', '\n', 'b', '\n'] [.pull 3] := by
    rintro ⟨before, max, later, hsplit, hless⟩
    cases before with
    | nil =>
      cases hsplit
      simp [LineReader.callAll] at hless
    | cons first before => simp at hsplit
  have beyond : reader.Overdrawn ['ä', '\n', 'b', '\n'] [.pull 3, .pull 5] :=
    ⟨[.pull 3], 5, [], rfl, by decide +kernel⟩
  obtain ⟨-, -, hfirst, -, -⟩ := hcalls [.pull 3]
  obtain ⟨-, -, hsecond, -, -⟩ := hcalls [.pull 3, .pull 5]
  obtain ⟨-, -, -, -, hover⟩ := hcalls [.pull 3, .pull 5, .takeFailure]
  refine ⟨by decide +kernel, ?_, ?_, ?_⟩
  · exact (hfirst (by simp)).2.mpr fun h => within h.2
  · exact (hsecond (by simp)).1.mpr ⟨garbled, beyond⟩
  · exact hover [.pull 3] 5 [.takeFailure] rfl (by decide +kernel) 1

end Rewind
