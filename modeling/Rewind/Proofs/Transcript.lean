import Rewind.LineReader
import Rewind.Proofs.Exhaustion

/-!
# Text from a device that may fail

The contents of a device are its bytes and its failing reads, in order. Reading a line takes the
first line off the contents (`readLine_eq`). What the lines stand for, one after another up to a
line that cannot be read, is the text that the contents tell (`Tells`). A reader hands out this
text, whatever the pulls, and then keeps the failure (`serves_due`). So where the input ends the
failure is there to be asked for, if there was one (`failure_kept`).
-/
namespace Rewind

/-! ## Decoding -/

namespace Utf8

theorem decode_eq_nil {bytes : List UInt8} (h : decode bytes = some []) : bytes = [] := by
  fun_induction decode bytes <;> simp_all

/-- The first character is decoded from its own bytes, whatever comes after them. -/
theorem decode_first {bytes : List UInt8} {c : Char} {text : List Char}
    (h : decode bytes = some (c :: text)) :
    ∃ first rest, bytes = first ++ rest ∧ decode rest = some text ∧
      ∀ more, decode (first ++ more) = (decode more).map (c :: ·) := by
  fun_induction decode bytes with
  | case2 a rest hone _ =>
    obtain ⟨u, hu, heq⟩ := Option.map_eq_some_iff.mp h
    cases heq
    refine ⟨[a], rest, rfl, hu, fun more => ?_⟩
    simp [decode.eq_def (a :: more), hone]
  | case4 a hone b rest htwo _ =>
    obtain ⟨u, hu, heq⟩ := Option.map_eq_some_iff.mp h
    cases heq
    refine ⟨[a, b], rest, rfl, hu, fun more => ?_⟩
    simp only [List.cons_append, List.nil_append, decode.eq_def (a :: b :: more), if_neg hone,
      if_pos htwo]
  | case6 a hone b htwo c rest hthree _ =>
    obtain ⟨u, hu, heq⟩ := Option.map_eq_some_iff.mp h
    cases heq
    refine ⟨[a, b, c], rest, rfl, hu, fun more => ?_⟩
    simp only [List.cons_append, List.nil_append, decode.eq_def (a :: b :: c :: more), if_neg hone,
      if_neg htwo,
      if_pos hthree]
  | case8 a hone b htwo c hthree d rest hfour _ =>
    obtain ⟨u, hu, heq⟩ := Option.map_eq_some_iff.mp h
    cases heq
    refine ⟨[a, b, c, d], rest, rfl, hu, fun more => ?_⟩
    simp only [List.cons_append, List.nil_append, decode.eq_def (a :: b :: c :: d :: more),
      if_neg hone, if_neg htwo,
      if_neg hthree, if_pos hfour]
  | _ => cases h

/-- What is decoded in two parts can be decoded as a whole. -/
theorem decode_append {a b : List UInt8} {s t : List Char} (ha : decode a = some s)
    (hb : decode b = some t) :
    decode (a ++ b) = some (s ++ t) := by
  induction s generalizing a with
  | nil =>
    rw [decode_eq_nil ha]
    exact hb
  | cons c s ih =>
    obtain ⟨first, rest, rfl, hrest, hfirst⟩ := decode_first ha
    rw [List.append_assoc, hfirst, ih hrest]
    rfl

end Utf8

/-! ## Contents -/

namespace Segment

/-- No read finds an end within the data. -/
def Proper (segments : List Segment) : Prop := ∀ bytes, data bytes ∈ segments → bytes ≠ []

/-- The bytes of the segments and their failing reads, in order. An interrupted read is made again
and leaves nothing. -/
def contents : List Segment → List (Except ReadError UInt8)
  | [] => []
  | data bytes :: rest => bytes.map .ok ++ contents rest
  | fault error :: rest =>
    if error.kind = .interrupted then contents rest else .error error :: contents rest

/-- All the bytes of the segments. -/
def bytes : List Segment → List UInt8
  | [] => []
  | data here :: rest => here ++ bytes rest
  | fault _ :: rest => bytes rest

theorem filterMap_ok (bytes : List UInt8) :
    (bytes.map (Except.ok (ε := ReadError))).filterMap Except.toOption = bytes := by
  rw [List.filterMap_map]
  exact List.filterMap_some

/-- The bytes of the contents, in order, are all there are. -/
theorem filterMap_contents (segments : List Segment) :
    (contents segments).filterMap Except.toOption = bytes segments := by
  fun_induction contents segments with
  | case1 => rfl
  | case2 here rest ih => rw [List.filterMap_append, filterMap_ok, ih, bytes]
  | case3 error rest interrupted ih => exact ih
  | case4 error rest other ih => exact ih

/-- What is left of a segment after a read, and the segments after it. -/
theorem rest_of_read {bytes : List UInt8} {rest : List Segment} (proper : Proper rest) {max : Nat}
    (some_read : 1 ≤ max) (some_bytes : bytes ≠ []) :
    let left := if (bytes.drop max).isEmpty then rest else data (bytes.drop max) :: rest
    Proper left ∧ (bytes.take max).map .ok ++ contents left = contents (data bytes :: rest) ∧
      reads left < reads (data bytes :: rest) := by
  by_cases hover : (bytes.drop max).isEmpty = true
  · have hall : bytes.take max = bytes := List.take_of_length_le (by simpa using hover)
    simp only [hover, if_true]
    refine ⟨proper, ?_, ?_⟩
    · rw [hall, contents]
    · simp [reads, weight]
  · have hmore : bytes.drop max ≠ [] := by simpa using hover
    have hlength := List.length_pos_iff.mpr some_bytes
    simp only [hover]
    refine ⟨?_, ?_, ?_⟩
    · intro other hother
      rcases List.mem_cons.mp hother with hsame | hother
      · cases hsame
        exact hmore
      · exact proper other hother
    · simp [contents, ← List.append_assoc]
    · simp [reads, weight]
      omega

end Segment

namespace BufferedDevice

def contents (d : BufferedDevice) : List (Except ReadError UInt8) :=
  d.held.map .ok ++ Segment.contents d.segments

/-- More than the number of reads that a line can take. -/
def weight (d : BufferedDevice) : Nat := d.held.length + Segment.reads d.segments

/-- The device gives some bytes to each read until its end, if the read does not fail. -/
structure Works (d : BufferedDevice) : Prop where
  roomy : 1 ≤ d.capacity
  proper : Segment.Proper d.segments

/-- What filling the buffer can do: there are bytes at hand, or the data is over, or a
read fails. -/
theorem fill_cases {d : BufferedDevice} (works : d.Works) :
    (∃ bytes e, d.fill = (.ok bytes, e) ∧ bytes ≠ [] ∧ e.Works ∧ e.held = bytes ∧
      e.contents = d.contents ∧ weight { e with held := [] } < d.weight) ∨
    (∃ e, d.fill = (.ok [], e) ∧ e.Works ∧ d.contents = [] ∧ e.contents = []) ∨
    ∃ error e, d.fill = (.error error, e) ∧ e.Works ∧ e.weight < d.weight ∧
      d.contents = if error.kind = .interrupted then e.contents else .error error ::
        e.contents := by
  obtain ⟨segments, capacity, held⟩ := d
  obtain ⟨roomy, proper⟩ := works
  cases held with
  | cons b bytes =>
    refine Or.inl ⟨b :: bytes, _, rfl, List.cons_ne_nil b bytes, ⟨roomy, proper⟩, rfl, rfl, ?_⟩
    simp [weight]
  | nil =>
    cases segments with
    | nil => exact Or.inr (Or.inl ⟨_, rfl, ⟨roomy, proper⟩, rfl, rfl⟩)
    | cons segment rest =>
      have hrest : Segment.Proper rest := fun bytes h =>
        proper bytes (List.mem_cons_of_mem segment h)
      cases segment with
      | fault error =>
        refine Or.inr (Or.inr ⟨error, _, rfl, ⟨roomy, hrest⟩, ?_, ?_⟩)
        · simp [weight, Segment.reads, Segment.weight]
        · simp [contents, Segment.contents]
      | data bytes =>
        have hbytes : bytes ≠ [] := proper bytes List.mem_cons_self
        obtain ⟨hproper, hcontents, hweight⟩ := Segment.rest_of_read hrest roomy hbytes
        refine Or.inl ⟨bytes.take capacity, _, rfl, ?_, ⟨roomy, hproper⟩, rfl, hcontents, ?_⟩
        · rw [ne_eq, List.take_eq_nil_iff]
          rintro (hzero | hnil)
          · exact absurd hzero (Nat.ne_of_gt roomy)
          · exact hbytes hnil
        · simpa [weight] using hweight

/-! ## Lines -/

end BufferedDevice

/-- The first line, its line feed included, if no read fails before its end. -/
def firstLine :
    List (Except ReadError UInt8) → Except ReadError (List UInt8) × List (Except ReadError UInt8)
  | [] => (.ok [], [])
  | .error error :: rest => (.error error, rest)
  | .ok b :: rest =>
    if b = BufferedDevice.lineFeed then (.ok [b], rest)
      else ((firstLine rest).1.map (b :: ·), (firstLine rest).2)

theorem firstLine_plain {bytes : List UInt8} (plain : ∀ b ∈ bytes, b ≠ BufferedDevice.lineFeed)
    (rest : List (Except ReadError UInt8)) :
    firstLine (bytes.map .ok ++ rest) =
      ((firstLine rest).1.map (bytes ++ ·), (firstLine rest).2) := by
  induction bytes with
  | nil => cases h : (firstLine rest).1 <;> simp [Except.map, ← h]
  | cons b bytes ih =>
    obtain ⟨hb, hbytes⟩ := List.forall_mem_cons.mp plain
    simp only [List.map_cons, List.cons_append, firstLine, if_neg hb, ih hbytes]
    cases (firstLine rest).1 <;> rfl

theorem firstLine_feed (rest : List (Except ReadError UInt8)) :
    firstLine (.ok BufferedDevice.lineFeed :: rest) = (.ok [BufferedDevice.lineFeed], rest) := by
  rw [firstLine, if_pos rfl]

/-- A line ends with its only line feed. -/
def IsLine (line : List UInt8) : Prop :=
  ∃ before, BufferedDevice.lineFeed ∉ before ∧ line = before ++ [BufferedDevice.lineFeed]

/-- The first line that is read is a line, or all that there is. -/
theorem firstLine_ok {contents left : List (Except ReadError UInt8)} {line : List UInt8}
    (h : firstLine contents = (.ok line, left)) :
    contents = line.map .ok ++ left ∧
    (IsLine line ∨ left = [] ∧ BufferedDevice.lineFeed ∉ line) := by
  induction contents generalizing line with
  | nil =>
    cases h
    simp
  | cons first rest ih =>
    cases first with
    | error error => cases h
    | ok b =>
      rw [firstLine] at h
      split at h
      · next hfeed =>
        cases h
        exact ⟨rfl, Or.inl ⟨[], by simp, by simp [hfeed]⟩⟩
      · next hother =>
        cases hfirst : firstLine rest with
        | mk answer after =>
          rw [hfirst] at h
          cases answer with
          | error error => cases h
          | ok line =>
            cases h
            obtain ⟨rfl, hline⟩ := ih hfirst
            refine ⟨rfl, ?_⟩
            rcases hline with ⟨before, hbefore, rfl⟩ | ⟨hnil, hline⟩
            · exact Or.inl ⟨b :: before, by simp [hbefore, Ne.symm hother], rfl⟩
            · exact Or.inr ⟨hnil, by simp [hline, Ne.symm hother]⟩

/-- A first line that cannot be read is cut short by a read that fails. -/
theorem firstLine_error {contents left : List (Except ReadError UInt8)} {error : ReadError}
    (h : firstLine contents = (.error error, left)) :
    ∃ before : List UInt8, BufferedDevice.lineFeed ∉ before ∧
    contents = before.map .ok ++ .error error :: left := by
  induction contents with
  | nil => cases h
  | cons first rest ih =>
    cases first with
    | error error =>
      cases h
      exact ⟨[], List.not_mem_nil, rfl⟩
    | ok b =>
      rw [firstLine] at h
      split at h
      · cases h
      · next hother =>
        cases hfirst : firstLine rest with
        | mk answer after =>
          rw [hfirst] at h
          cases answer with
          | ok line => cases h
          | error error =>
            cases h
            obtain ⟨before, hbefore, rfl⟩ := ih hfirst
            exact ⟨b :: before, by simp [hbefore, Ne.symm hother], rfl⟩

namespace BufferedDevice

/-- The bytes through the first line feed, and those after it. -/
theorem split_lineFeed (bytes : List UInt8) :
    (∀ b ∈ bytes.takeWhile (· ≠ lineFeed), b ≠ lineFeed) ∧
      ∀ first rest, bytes.dropWhile (· ≠ lineFeed) = first :: rest →
        first = lineFeed ∧ bytes = bytes.takeWhile (· ≠ lineFeed) ++ lineFeed :: rest := by
  constructor
  · intro b hb
    simpa using List.all_eq_true.mp List.all_takeWhile b hb
  · intro first rest hdrop
    have hsplit := List.takeWhile_append_dropWhile (p := (· ≠ lineFeed)) (l := bytes)
    have hfirst := List.head?_dropWhile_not (· ≠ lineFeed) bytes
    simp only [hdrop] at hsplit hfirst
    obtain rfl : first = lineFeed := by simpa using hfirst
    exact ⟨rfl, hsplit.symm⟩

/-- The line goes on behind the bytes at hand. -/
theorem gather_beyond {d e : BufferedDevice} {bytes : List UInt8} (filled : d.fill = (.ok bytes, e))
    (some_bytes : bytes ≠ []) (beyond : bytes.dropWhile (· ≠ lineFeed) = []) (rounds : Nat)
    (line : List UInt8) :
    gather (rounds + 1) line d = gather rounds (line ++ bytes) { e with held := [] } := by
  cases bytes with
  | nil => contradiction
  | cons b bytes => simp only [gather, filled, beyond]

/-- The line ends among the bytes at hand. -/
theorem gather_within {d e : BufferedDevice} {bytes rest : List UInt8} {first : UInt8}
    (filled : d.fill = (.ok bytes, e)) (within : bytes.dropWhile (· ≠ lineFeed) = first :: rest)
    (rounds : Nat) (line : List UInt8) : gather (rounds + 1) line d =
      (.ok (line ++ bytes.takeWhile (· ≠ lineFeed) ++ [lineFeed]), { e with held := rest }) := by
  cases bytes with
  | nil => cases within
  | cons b bytes => simp only [gather, filled, within]

/-- Gathering the bytes of a line finds the first line of the contents, in so many rounds. -/
theorem gather_eq {rounds : Nat} {d : BufferedDevice} (works : d.Works) (enough : d.weight < rounds)
    (line : List UInt8) :
    (gather rounds line d).1 = (firstLine d.contents).1.map (line ++ ·) ∧
      (gather rounds line d).2.contents = (firstLine d.contents).2 ∧
      (gather rounds line d).2.Works := by
  -- Each round takes from the weight: a read that was interrupted, or the bytes at hand.
  induction rounds generalizing d line with
  | zero => omega
  | succ rounds ih =>
    rcases fill_cases works with ⟨bytes, e, hfill, hsome, hworks, rfl, hcontents, hweight⟩ |
      ⟨e, hfill, hworks, hover, hnone⟩ | ⟨error, e, hfill, hworks, hweight, hcontents⟩
    · obtain ⟨hplain, hfeed⟩ := split_lineFeed e.held
      rw [← hcontents]
      cases hdrop : e.held.dropWhile (· ≠ lineFeed) with
      | nil =>
        have hall : e.held.takeWhile (· ≠ lineFeed) = e.held := by
          have hsplit := List.takeWhile_append_dropWhile (p := (· ≠ lineFeed)) (l := e.held)
          rwa [hdrop, List.append_nil] at hsplit
        rw [hall] at hplain
        obtain ⟨hline, hleft, hafter⟩ :=
          ih (d := { e with held := [] }) ⟨hworks.roomy, hworks.proper⟩ (by omega)
          (line ++ e.held)
        rw [gather_beyond hfill hsome hdrop, contents, firstLine_plain hplain]
        refine ⟨?_, hleft, hafter⟩
        refine hline.trans ?_
        change (firstLine (Segment.contents e.segments)).1.map _ = _
        cases (firstLine (Segment.contents e.segments)).1 <;> simp [Except.map]
      | cons first rest =>
        obtain ⟨rfl, hbytes⟩ := hfeed first rest hdrop
        have hline : firstLine e.contents = (.ok (e.held.takeWhile (· ≠ lineFeed) ++ [lineFeed]),
            rest.map .ok ++ Segment.contents e.segments) := by
          rw [contents, hbytes]
          simp only [List.map_append, List.map_cons, List.append_assoc, List.cons_append]
          rw [firstLine_plain hplain, firstLine_feed, ← hbytes]
          rfl
        rw [gather_within hfill hdrop, hline]
        exact ⟨by simp [Except.map], rfl, hworks.roomy, hworks.proper⟩
    · rw [gather, hfill, hover]
      simp [firstLine, Except.map, hnone, hworks]
    · rw [gather, hfill, hcontents]
      dsimp only
      split
      · exact ih hworks (by omega) line
      · exact ⟨rfl, rfl, hworks⟩

/-- Reading a line of the device takes the first line off its contents. -/
theorem readLine_eq {d : BufferedDevice} (works : d.Works) :
    d.readLine.1 = (firstLine d.contents).1 ∧
    d.readLine.2.contents = (firstLine d.contents).2 ∧ d.readLine.2.Works := by
  obtain ⟨hline, hleft, hworks⟩ := gather_eq works (Nat.lt_succ_self d.weight) []
  refine ⟨hline.trans ?_, hleft, hworks⟩
  cases (firstLine d.contents).1 <;> simp [Except.map]

end BufferedDevice

/-! ## Text -/

/-- The contents tell the text and then end, or come to a line that cannot be read, for
this reason. -/
inductive Tells : List (Except ReadError UInt8) → List Char → Option ReadError → Prop
  | ended {contents left : List (Except ReadError UInt8)} : firstLine contents = (.ok [], left) →
    Tells contents [] none
  | failed {contents left : List (Except ReadError UInt8)} {error : ReadError} :
    firstLine contents = (.error error, left) → Tells contents [] (some error)
  | garbled {contents left : List (Except ReadError UInt8)} {line : List UInt8} :
    firstLine contents = (.ok line, left) → Utf8.decode line = none →
    Tells contents [] (some .invalidUtf8)
  | line {contents left : List (Except ReadError UInt8)} {line : List UInt8}
    {first text : List Char}
    {failure : Option ReadError} : firstLine contents = (.ok line, left) → line ≠ [] →
    Utf8.decode line = some first → Tells left text failure → Tells contents (first ++ text) failure

theorem exists_tells (contents : List (Except ReadError UInt8)) :
    ∃ text failure, Tells contents text failure := by
  induction hlength : contents.length using Nat.strongRecOn generalizing contents with
  | ind length ih =>
    cases hfirst : firstLine contents with
    | mk answer left =>
      cases answer with
      | error error => exact ⟨_, _, .failed hfirst⟩
      | ok line =>
        cases hdecode : Utf8.decode line with
        | none => exact ⟨_, _, .garbled hfirst hdecode⟩
        | some first =>
          by_cases hnil : line = []
          · subst hnil
            exact ⟨_, _, .ended hfirst⟩
          · have hlengths := congrArg List.length (firstLine_ok hfirst).1
            have hsome := List.length_pos_iff.mpr hnil
            simp only [List.length_append, List.length_map] at hlengths
            obtain ⟨text, failure, htells⟩ := ih left.length (by omega) left rfl
            exact ⟨_, _, .line hfirst hnil hdecode htells⟩

/-- Contents that are told to the end are bytes alone, and the text is what they stand for. -/
theorem Tells.whole {contents : List (Except ReadError UInt8)} {text : List Char}
    (tells : Tells contents text none) :
    ∃ bytes : List UInt8, contents = bytes.map .ok ∧ Utf8.decode bytes = some text := by
  generalize hfailure : (none : Option ReadError) = failure at tells
  induction tells with
  | ended h =>
    obtain ⟨rfl, hline⟩ := firstLine_ok h
    rcases hline with ⟨before, -, hnil⟩ | ⟨rfl, -⟩
    · simp at hnil
    · exact ⟨[], rfl, rfl⟩
  | failed h => cases hfailure
  | garbled h hdecode => cases hfailure
  | line h hsome hdecode _ ih =>
    obtain ⟨bytes, rfl, hbytes⟩ := ih hfailure
    obtain ⟨rfl, -⟩ := firstLine_ok h
    exact ⟨_, List.map_append.symm, Utf8.decode_append hdecode hbytes⟩

/-- The first line cannot be read: a read fails before its end, or its bytes are no text. -/
inductive Unreadable : List (Except ReadError UInt8) → ReadError → Prop
  | failed {before : List UInt8} {rest : List (Except ReadError UInt8)} {error : ReadError} :
    BufferedDevice.lineFeed ∉ before → Unreadable (before.map .ok ++ .error error :: rest) error
  | garbled {line : List UInt8} {rest : List (Except ReadError UInt8)} :
    IsLine line ∨ rest = [] ∧ BufferedDevice.lineFeed ∉ line → Utf8.decode line = none →
    Unreadable (line.map .ok ++ rest) .invalidUtf8

theorem Unreadable.ne_nil {contents : List (Except ReadError UInt8)} {error : ReadError}
    (unreadable : Unreadable contents error) : contents ≠ [] := by
  cases unreadable with
  | failed => simp
  | garbled _ hdecode =>
    rename_i line rest _
    have hsome : line ≠ [] := by
      rintro rfl
      cases hdecode
    simp [hsome]

/-- Contents that are not told to the end are lines first, which stand for the text, and then one
that cannot be read. -/
theorem Tells.cut {contents : List (Except ReadError UInt8)} {text : List Char} {error : ReadError}
    (tells : Tells contents text (some error)) :
    ∃ (lines : List (List UInt8)) (left : List (Except ReadError UInt8)),
      contents = lines.flatten.map .ok ++ left ∧
      (∀ line ∈ lines, IsLine line ∧ Utf8.decode line ≠ none) ∧
      Utf8.decode lines.flatten = some text ∧ Unreadable left error := by
  generalize hfailure : some error = failure at tells
  induction tells with
  | ended h => cases hfailure
  | failed h =>
    cases hfailure
    obtain ⟨before, hbefore, rfl⟩ := firstLine_error h
    exact ⟨[], _, rfl, by simp, rfl, .failed hbefore⟩
  | garbled h hdecode =>
    cases hfailure
    obtain ⟨rfl, hline⟩ := firstLine_ok h
    exact ⟨[], _, rfl, by simp, rfl, .garbled hline hdecode⟩
  | line h hsome hdecode _ ih =>
    rename_i line _ _ _ _
    obtain ⟨lines, left, rfl, hlines, htext, hleft⟩ := ih hfailure
    obtain ⟨rfl, hline⟩ := firstLine_ok h
    have hfirst : IsLine line := by
      rcases hline with hline | ⟨hnil, -⟩
      · exact hline
      · exact absurd (List.append_eq_nil_iff.mp hnil).2 hleft.ne_nil
    refine ⟨line :: lines, left, ?_, ?_, ?_, hleft⟩
    · simp
    · exact List.forall_mem_cons.mpr ⟨⟨hfirst, by simp [hdecode]⟩, hlines⟩
    · exact Utf8.decode_append hdecode htext

namespace LineReader

/-- What the reader still hands out, and the failure that it will be left with. -/
structure Due (failure : Option ReadError) (r : LineReader) (text : List Char) : Prop where
  works : r.device.Works
  tells : r.finished = true ∧ r.line = [] ∧ text = [] ∧ r.failure = failure ∨
    r.finished = false ∧ r.failure = none ∧ ∃ more, text = r.line ++ more ∧
    Tells r.device.contents more failure

/-- A line that is no text stops the reader. -/
theorem nextLine_garbled {r : LineReader} {line : List UInt8} {device : BufferedDevice}
    (read : r.device.readLine = (.ok line, device)) (garbled : Utf8.decode line = none) :
    r.nextLine = stop { r with device := device } .invalidUtf8 := by
  cases line with
  | nil => cases garbled
  | cons b line => simp only [nextLine, read, garbled]

theorem nextLine_text {r : LineReader} {line : List UInt8} {device : BufferedDevice}
    {text : List Char} (read : r.device.readLine = (.ok line, device)) (some_bytes : line ≠ [])
    (decoded : Utf8.decode line = some text) :
    r.nextLine = ([], { r with device := device, line := text }) := by
  cases line with
  | nil => contradiction
  | cons b line => simp only [nextLine, read, decoded]

/-- A reader that has come to the end of a line goes on to the next, or is finished. -/
theorem nextLine_due {failure : Option ReadError} {r : LineReader} {text : List Char}
    (due : r.Due failure text) (going : r.finished = false) (ended : r.line = []) :
    r.nextLine.2.Due failure text := by
  obtain ⟨works, ⟨hfinished, -⟩ | ⟨-, hfailure, more, htext, htells⟩⟩ := due
  · rw [going] at hfinished
    cases hfinished
  obtain ⟨hline, hleft, hworks⟩ := BufferedDevice.readLine_eq works
  rw [ended, List.nil_append] at htext
  subst htext
  cases hread : r.device.readLine with
  | mk answer device =>
    rw [hread] at hline hleft hworks
    cases htells with
    | ended h =>
      rw [h] at hline
      cases hline
      rw [nextLine, hread]
      exact ⟨hworks, Or.inl ⟨rfl, ended, rfl, hfailure⟩⟩
    | failed h =>
      rw [h] at hline
      cases hline
      rw [nextLine, hread]
      exact ⟨hworks, Or.inl ⟨rfl, ended, rfl, rfl⟩⟩
    | garbled h hdecode =>
      rw [h] at hline
      cases hline
      rw [nextLine_garbled hread hdecode]
      exact ⟨hworks, Or.inl ⟨rfl, ended, rfl, rfl⟩⟩
    | line h hsome hdecode htells =>
      rw [h] at hline hleft
      cases hline
      rw [nextLine_text hread hsome hdecode]
      refine ⟨hworks, Or.inr ⟨going, hfailure, _, rfl, ?_⟩⟩
      rw [hleft]
      exact htells

/-- A reader that has no symbols after it went on is finished. -/
theorem nextLine_finished {r : LineReader} (nothing : r.nextLine.2.line = []) :
    r.nextLine.2.finished = true := by
  cases hread : r.device.readLine with
  | mk answer device =>
    cases answer with
    | error error => simp [nextLine, hread, stop]
    | ok line =>
      cases hdecode : Utf8.decode line with
      | none => simp [nextLine_garbled hread hdecode, stop]
      | some text =>
        by_cases hnil : line = []
        · simp [nextLine, hread, hnil]
        · rw [nextLine_text hread hnil hdecode] at nothing
          cases nothing
          exact absurd (Utf8.decode_eq_nil hdecode) hnil

theorem Due.finished {failure : Option ReadError} {r : LineReader} {text : List Char}
    (due : r.Due failure text) (finished : r.finished = true) :
    text = [] ∧ r.failure = failure := by
  rcases due.tells with ⟨-, -, htext, hfailure⟩ | ⟨hgoing, -⟩
  · exact ⟨htext, hfailure⟩
  · rw [finished] at hgoing
    cases hgoing

/-- The next symbol of the line is the next that is due. -/
theorem Due.symbol {failure : Option ReadError} {r : LineReader} {text : List Char}
    (due : r.Due failure text) {c : Char} {rest : List Char} (line : r.line = c :: rest) :
    ∃ more, text = c :: more ∧ Due failure { r with line := rest } more := by
  obtain ⟨works, ⟨-, hnil, -⟩ | ⟨hgoing, hfailure, more, rfl, htells⟩⟩ := due
  · rw [line] at hnil
    cases hnil
  · rw [line]
    exact ⟨rest ++ more, rfl, works, Or.inr ⟨hgoing, hfailure, more, rfl, htells⟩⟩

/-- A pull takes so many symbols of what is due. -/
theorem pull_due {failure : Option ReadError} (want : Nat) (r : LineReader) :
    ∀ text, r.Due failure text →
      (pull want r).symbols = text.take want ∧
      (pull want r).source.Due failure (text.drop want) := by
  fun_induction pull want r with
  | case1 r => exact fun text due => ⟨rfl, due⟩
  | case2 want r finished =>
    intro text due
    obtain ⟨rfl, -⟩ := due.finished finished
    exact ⟨rfl, due⟩
  | case3 want r going c rest line p ih =>
    intro text due
    obtain ⟨more, rfl, hmore⟩ := due.symbol line
    obtain ⟨hsymbols, hsource⟩ := ih more hmore
    exact ⟨congrArg (c :: ·) hsymbols, hsource⟩
  | case4 want r going line notices r' next nothing =>
    intro text due
    have hdue := nextLine_due due (by simpa using going) line
    have hfinished := nextLine_finished (r := r) (by simpa [next] using nothing)
    rw [next] at hdue hfinished
    obtain ⟨rfl, -⟩ := hdue.finished hfinished
    exact ⟨rfl, hdue⟩
  | case5 want r going line notices r' next c rest line' p ih =>
    intro text due
    have hdue := nextLine_due due (by simpa using going) line
    rw [next] at hdue
    obtain ⟨more, rfl, hmore⟩ := hdue.symbol line'
    obtain ⟨hsymbols, hsource⟩ := ih more hmore
    exact ⟨congrArg (c :: ·) hsymbols, hsource⟩

theorem serves_due (failure : Option ReadError) : Serves (Due failure) := by
  intro r text due max hmax
  exact ⟨max, Nat.le_refl max, fun _ => hmax, pull_due max r text due⟩

/-- A pull for some symbols that brings none finishes the reader. -/
theorem pull_finished {want : Nat} (r : LineReader) (nothing : (pull (want + 1) r).symbols = []) :
    (pull (want + 1) r).source.finished = true := by
  rw [pull] at nothing ⊢
  by_cases hfinished : r.finished = true
  · rwa [if_pos hfinished]
  · rw [if_neg hfinished] at nothing ⊢
    cases hline : r.line with
    | cons c rest => simp [hline] at nothing
    | nil =>
      have hnext := nextLine_finished (r := r)
      cases hafter : r.nextLine.2.line with
      | cons c rest => simp [hline, hafter] at nothing
      | nil => simpa [hafter] using hnext hafter

theorem closes_finished : Closes fun r : LineReader => r.finished = true := by
  constructor
  · intro r max hmax hnothing
    obtain ⟨want, rfl⟩ := Nat.exists_eq_add_of_le' hmax
    exact pull_finished r hnothing
  · intro r max hfinished
    change (pull max r).source.finished = true
    cases max with
    | zero => exact hfinished
    | succ want => rwa [pull, if_pos hfinished]

end LineReader

/-- Whatever the pieces in which the bytes come, the room in the buffers and what was done before:
once the end of the input has been found, either no read has failed, and the nodes spell what all
the bytes stand for, or the reader keeps the failure, and the nodes spell the lines before the one
that could not be read. -/
theorem failure_kept {ε : Type} {segments : List Segment} (proper : Segment.Proper segments)
    {capacity : Nat} (roomy : 1 ≤ capacity) {room : Nat} {window : Window LineReader Char}
    (opened : Window.withCapacity (LineReader.ofSegments segments capacity) room = .ok window)
    (start : Position) (history : List (Nat × Action Char ε)) {s : Stream Char}
    (node : ((Visit.ofWindow window start).actAll history).session.chain.Node
      (Chain.ofWindow window start).1 s)
    (ends : s.current = none) :
    let c := ((Visit.ofWindow window start : Visit LineReader Char ε).actAll history).session.chain
    ∃ text : List Char,
      (∀ i ≤ text.length, ∃ t, c.consumeTimes (Chain.ofWindow window start).1 i = (.ok t, c) ∧
        t.current = text[i]?) ∧
      (c.window.source.failure = none ∧
        Segment.contents segments = (Segment.bytes segments).map .ok ∧
        Utf8.decode (Segment.bytes segments) = some text ∨
      ∃ (error : ReadError) (lines : List (List UInt8)) (left : List (Except ReadError UInt8)),
        c.window.source.failure = some error ∧
        Segment.contents segments = lines.flatten.map .ok ++ left ∧
        (∀ line ∈ lines, IsLine line ∧ Utf8.decode line ≠ none) ∧
        Utf8.decode lines.flatten = some text ∧
        Unreadable left error) := by
  intro c
  obtain ⟨text, failure, htells⟩ := exists_tells (Segment.contents segments)
  have hdue : (LineReader.ofSegments segments capacity).Due failure text :=
    ⟨⟨roomy, proper⟩, Or.inr ⟨rfl, rfl, text, rfl, htells⟩⟩
  obtain ⟨hdue, hfinished, hnodes⟩ :=
    end_found (LineReader.serves_due failure) LineReader.closes_finished
    ⟨text, start⟩ hdue opened history node ends
  refine ⟨text, hnodes, ?_⟩
  obtain ⟨-, hfailure⟩ := hdue.finished hfinished
  rw [hfailure]
  cases failure with
  | none =>
    obtain ⟨bytes, hbytes, hdecode⟩ := htells.whole
    have hall : Segment.bytes segments = bytes := by
      rw [← Segment.filterMap_contents, hbytes, Segment.filterMap_ok]
    rw [hall]
    exact Or.inl ⟨rfl, hbytes, hdecode⟩
  | some error =>
    obtain ⟨lines, left, hcut⟩ := htells.cut
    exact Or.inr ⟨error, lines, left, rfl, hcut⟩

/-- A line, and then one whose read is interrupted, made again and fails. -/
theorem failure_kept_broken :
    let broken : ReadError := ⟨.other, "disk on fire"⟩
    let segments : List Segment :=
      [.data [97, 10, 98], .fault ⟨.interrupted, ""⟩, .data [99], .fault broken]
    let window : Window LineReader Char := ⟨.ofSegments segments 2, #[], 0, 1, false, #[]⟩
    let c :=
      ((Visit.ofWindow (ε := Unit) window .start).actAll
        [(0, .consume), (1, .consume)]).session.chain
    c.window.source.failure = some broken ∧
    ∃ (text : List Char) (lines : List (List UInt8)),
      (∀ i ≤ text.length, ∃ t, c.consumeTimes (Chain.ofWindow window .start).1 i = (.ok t, c) ∧
        t.current = text[i]?) ∧
      (∀ line ∈ lines, IsLine line ∧ Utf8.decode line ≠ none) ∧
      Utf8.decode lines.flatten = some text := by
  intro broken segments window
  have proper : Segment.Proper segments := by simp [Segment.Proper, segments]
  have opened : Window.withCapacity (LineReader.ofSegments segments 2) 0 = .ok window := rfl
  have node :
      ((Visit.ofWindow (ε := Unit) window .start).actAll
          [(0, .consume), (1, .consume)]).session.chain.Node
        (Chain.ofWindow window .start).1 ⟨2, none, ⟨2, 1, 2⟩⟩ := by
    apply Visit.held_node (Chain.linked_ofWindow window .start)
    · exact fun t ht => Or.inl (List.mem_singleton.mp ht)
    · simp [Action.Scriptless]
    · decide +kernel
  have failed : ((Visit.ofWindow (ε := Unit) window .start).actAll
      [(0, .consume), (1, .consume)]).session.chain.window.source.failure = some broken := by
    decide +kernel
  have told := failure_kept proper (by decide) opened .start _ node rfl
  generalize
    ((Visit.ofWindow (ε := Unit) window .start).actAll
      [(0, .consume), (1, .consume)]).session.chain = c
    at failed told ⊢
  obtain ⟨text, nodes, ⟨whole, -⟩ | ⟨error, lines, left, -, -, hlines, htext, -⟩⟩ := told
  · rw [failed] at whole
    cases whole
  · exact ⟨failed, text, lines, nodes, hlines, htext⟩

end Rewind
