import Rewind.Source
import Rewind.Utf8

/-!
Text from a device that is read in pieces and may fail. Lines are gathered as bytes and decoded
whole; the first failure, or the first empty line, ends the text for good, and a failure is kept
to be asked for.
-/
namespace Rewind

inductive ReadError.Kind where
  | interrupted
  | unexpectedEof
  | invalidData
  | other
  deriving DecidableEq

structure ReadError where
  kind : ReadError.Kind
  message : String
  deriving DecidableEq

namespace ReadError

def Kind.name : Kind → String
  | interrupted => "Interrupted"
  | unexpectedEof => "UnexpectedEof"
  | invalidData => "InvalidData"
  | other => "Other"

def invalidUtf8 : ReadError := ⟨.invalidData, "stream did not contain valid UTF-8"⟩

end ReadError

/-- A device answers each read with bytes or with an error. -/
inductive Segment where
  | data (bytes : List UInt8)
  | fault (error : ReadError)

/-- The number of bytes that a read gave. -/
def byteLength : Except ReadError (List UInt8) → Nat
  | .ok bytes => bytes.length
  | .error _ => 0

namespace Segment

/-- An upper bound of the reads that the segment takes part in. -/
def weight : Segment → Nat
  | data bytes => bytes.length + 1
  | fault _ => 1

def byteCount : Segment → Nat
  | data bytes => bytes.length
  | fault _ => 0

/-- One read of at most `max` bytes. It stays within one segment; no bytes means the
end of the data. -/
def read (max : Nat) : List Segment → Except ReadError (List UInt8) × List Segment
  | [] => (.ok [], [])
  | data bytes :: rest =>
    let left := bytes.drop max
    (.ok (bytes.take max), if left.isEmpty then rest else data left :: rest)
  | fault error :: rest => (.error error, rest)

/-- The number of bytes on a device. -/
def total : List Segment → Nat
  | [] => 0
  | first :: rest => first.byteCount + total rest

/-- An upper bound of the reads that a device takes. -/
def reads : List Segment → Nat
  | [] => 0
  | first :: rest => first.weight + reads rest

theorem total_read_le (max : Nat) (segments : List Segment) :
    byteLength (read max segments).1 + total (read max segments).2 ≤ total segments := by
  cases segments with
  | nil => exact Nat.le_refl _
  | cons first rest =>
    cases first with
    | fault error =>
      simp only [read, byteLength, total, byteCount]
      omega
    | data bytes =>
      by_cases h : (bytes.drop max).isEmpty = true
      · simp only [read, byteLength, total, byteCount, if_pos h, List.length_take]
        omega
      · simp only [read, byteLength, total, byteCount, if_neg h, List.length_take, List.length_drop]
        omega

end Segment

/-- A device with a buffer of the given capacity before it. -/
structure BufferedDevice where
  segments : List Segment
  capacity : Nat
  held : List UInt8

namespace BufferedDevice

def size (d : BufferedDevice) : Nat := d.held.length + Segment.total d.segments

/-- The bytes at hand, from one read of the device when there are none. -/
def fill (d : BufferedDevice) : Except ReadError (List UInt8) × BufferedDevice :=
  if d.held.isEmpty then
    match Segment.read d.capacity d.segments with
    | (.ok bytes, segments) => (.ok bytes, { d with segments := segments, held := bytes })
    | (.error error, segments) => (.error error, { d with segments := segments })
  else (.ok d.held, d)

theorem fill_ok {d e : BufferedDevice} {bytes : List UInt8} (h : d.fill = (.ok bytes, e)) :
    e.held = bytes ∧ e.size ≤ d.size := by
  unfold fill at h
  split at h
  · have hr := Segment.total_read_le d.capacity d.segments
    split at h
    · next hread =>
      rw [hread] at hr
      simp only [Prod.mk.injEq, Except.ok.injEq] at h
      obtain ⟨rfl, rfl⟩ := h
      refine ⟨rfl, ?_⟩
      simp only [size, byteLength] at hr ⊢
      omega
    · simp at h
  · simp only [Prod.mk.injEq, Except.ok.injEq] at h
    obtain ⟨rfl, rfl⟩ := h
    exact ⟨rfl, Nat.le_refl _⟩

theorem fill_error {d e : BufferedDevice} {error : ReadError} (h : d.fill = (.error error, e)) :
    e.size ≤ d.size := by
  unfold fill at h
  split at h
  · have hr := Segment.total_read_le d.capacity d.segments
    split at h
    · simp at h
    · next hread =>
      rw [hread] at hr
      simp only [Prod.mk.injEq] at h
      rw [← h.2]
      simp only [size, byteLength] at hr ⊢
      omega
  · simp at h

def lineFeed : UInt8 := 10

/-- Gathers bytes through the next line feed, or to the end of the data. Interrupted reads
are made again. -/
def gather : Nat → List UInt8 → BufferedDevice → Except ReadError (List UInt8) × BufferedDevice
  | 0, line, d => (.ok line, d)
  | rounds + 1, line, d =>
    match d.fill with
    | (.error error, d) =>
      if error.kind = .interrupted then gather rounds line d else (.error error, d)
    | (.ok [], d) => (.ok line, d)
    | (.ok bytes, d) =>
      match bytes.dropWhile (· ≠ lineFeed) with
      | [] => gather rounds (line ++ bytes) { d with held := [] }
      | _ :: rest =>
        (.ok (line ++ bytes.takeWhile (· ≠ lineFeed) ++ [lineFeed]), { d with held := rest })

theorem size_gather_le (rounds : Nat) (line : List UInt8) (d : BufferedDevice) :
    byteLength (gather rounds line d).1 + (gather rounds line d).2.size ≤ line.length + d.size := by
  induction rounds generalizing line d with
  | zero => exact Nat.le_refl _
  | succ rounds ih =>
    rw [gather]
    split
    · next error e hfill =>
      have hd := fill_error hfill
      split
      · exact Nat.le_trans (ih line e) (by omega)
      · simp only [byteLength]
        omega
    · next e hfill =>
      have hd := (fill_ok hfill).2
      simp only [byteLength]
      omega
    · next bytes e _ hfill =>
      obtain ⟨hheld, hd⟩ := fill_ok hfill
      simp only [size, hheld] at hd
      split
      · refine Nat.le_trans (ih _ _) ?_
        simp only [size, List.length_append, List.length_nil]
        omega
      · next rest hsplit =>
        have hlen :=
          congrArg List.length (List.takeWhile_append_dropWhile (p := (· ≠ lineFeed)) (l := bytes))
        simp only [List.length_append, hsplit, List.length_cons] at hlen
        simp only [byteLength, size, List.length_append, List.length_cons, List.length_nil]
        omega

/-- The bytes of the next line, its line feed included. -/
def readLine (d : BufferedDevice) : Except ReadError (List UInt8) × BufferedDevice :=
  d.gather (d.held.length + Segment.reads d.segments + 1) []

end BufferedDevice

structure LineReader where
  device : BufferedDevice
  /-- Characters of the current line that have not been handed out. -/
  line : List Char
  finished : Bool
  failure : Option ReadError

namespace LineReader

def ofSegments (segments : List Segment) (capacity : Nat) : LineReader :=
  ⟨⟨segments, capacity, []⟩, [], false, none⟩

def takeFailure (r : LineReader) : Option ReadError × LineReader :=
  (r.failure, { r with failure := none })

def stop (r : LineReader) (error : ReadError) : List Notice × LineReader :=
  ([.readFailed error.message], { r with finished := true, failure := some error })

/-- Replaces the finished line by the next one. -/
def nextLine (r : LineReader) : List Notice × LineReader :=
  match r.device.readLine with
  | (.error error, device) => stop { r with device := device } error
  | (.ok [], device) => ([], { r with device := device, finished := true })
  | (.ok bytes, device) =>
    match Utf8.decode bytes with
    | none => stop { r with device := device } .invalidUtf8
    | some line => ([], { r with device := device, line := line })

def pull : Nat → LineReader → Pull LineReader Char
  | 0, r => ⟨[], [], r⟩
  | want + 1, r =>
    if r.finished then ⟨[], [], r⟩
    else
      match r.line with
      | c :: rest =>
        let p := pull want { r with line := rest }
        ⟨c :: p.symbols, p.notices, p.source⟩
      | [] =>
        match r.nextLine with
        | (notices, r) =>
          match r.line with
          | [] => ⟨[], notices, r⟩
          | c :: rest =>
            let p := pull want { r with line := rest }
            ⟨c :: p.symbols, notices ++ p.notices, p.source⟩

def size (r : LineReader) : Nat := r.line.length + r.device.size

theorem size_nextLine_le {r : LineReader} (h : r.line = []) : r.nextLine.2.size ≤ r.size := by
  have hd := r.device.size_gather_le (r.device.held.length + Segment.reads r.device.segments + 1) []
  rw [← BufferedDevice.readLine] at hd
  unfold nextLine
  split
  · next hread =>
    rw [hread] at hd
    simp only [stop, size, byteLength, List.length_nil] at hd ⊢
    omega
  · next hread =>
    rw [hread] at hd
    simp only [size, byteLength, List.length_nil] at hd ⊢
    omega
  · next bytes _ _ hread =>
    rw [hread] at hd
    split
    · simp only [stop, size, byteLength, List.length_nil] at hd ⊢
      omega
    · next line hdecode =>
      have hline := Utf8.length_le_of_decode hdecode
      simp only [size, byteLength, h, List.length_nil] at hd ⊢
      omega

theorem length_pull_le (want : Nat) (r : LineReader) : (pull want r).symbols.length ≤ want := by
  fun_induction pull want r with
  | case1 => exact Nat.le_refl _
  | case2 => exact Nat.zero_le _
  | case3 _ _ _ _ _ _ _ ih => exact Nat.succ_le_succ ih
  | case4 => exact Nat.zero_le _
  | case5 _ _ _ _ _ _ _ _ _ _ _ ih => exact Nat.succ_le_succ ih

theorem size_pull_le (want : Nat) (r : LineReader) :
    (pull want r).symbols.length + (pull want r).source.size ≤ r.size := by
  fun_induction pull want r with
  | case1 r => simp
  | case2 want r => simp
  | case3 want r _ c rest hline p ih =>
    have ih : p.symbols.length + p.source.size ≤ rest.length + r.device.size := ih
    simp only [size, hline, List.length_cons] at ih ⊢
    omega
  | case4 want r _ hline notices r' hnext hline' =>
    have hr := size_nextLine_le hline
    rw [hnext] at hr
    simpa using hr
  | case5 want r _ hline notices r' hnext c rest hline' p ih =>
    have hr := size_nextLine_le hline
    rw [hnext] at hr
    have ih : p.symbols.length + p.source.size ≤ rest.length + r'.device.size := ih
    simp only [size, hline', List.length_cons] at ih hr ⊢
    omega

instance : Source LineReader Char where
  pull r max := pull max r
  size := size
  length_pull_le r max := r.length_pull_le max
  size_pull_le r max := r.size_pull_le max

end LineReader
end Rewind
