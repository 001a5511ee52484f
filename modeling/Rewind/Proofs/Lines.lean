import Mathlib.Data.List.Permutation
import Rewind.Proofs.Places
import Rewind.Proofs.Reading

/-!
# Lines

A text is cut into lines in one way: each line but perhaps the last is ended by a line feed, by a
carriage return with a line feed, or by a carriage return alone (`Lined`). Reading line by line
finds these lines, by looking at a symbol and then at the one after it. The streams of the text find
them by their positions, which look at two symbols before they pass one. So the two agree
(`lines_agree`).
-/
namespace Rewind

variable {τ υ σ : Type} [Symbol σ]

/-- What ends a line, given the symbol after it. -/
def IsTerminator (following : Option σ) (terminator : List σ) : Prop :=
  terminator = [Symbol.lineFeed] ∨ terminator = [Symbol.carriageReturn, Symbol.lineFeed] ∨
    terminator = [Symbol.carriageReturn] ∧ following ≠ some Symbol.lineFeed

/-- No symbol of the line ends a line. -/
def IsPlain (line : List σ) : Prop := ∀ a ∈ line, a ≠ Symbol.lineFeed ∧ a ≠ Symbol.carriageReturn

/-- The text is cut into lines and their terminators. Only the last line may have none. -/
inductive Lined : List σ → List (List σ × List σ) → Prop
  | empty : Lined [] []
  | last {line : List σ} : line ≠ [] → IsPlain line → Lined line [(line, [])]
  | ended {line terminator rest : List σ} {more : List (List σ × List σ)} : IsPlain line →
    IsTerminator rest.head? terminator → Lined rest more →
    Lined (line ++ terminator ++ rest) ((line, terminator) :: more)

theorem IsTerminator.ne_nil {following : Option σ} {terminator : List σ}
    (h : IsTerminator following terminator) :
    terminator ≠ [] := by
  rcases h with rfl | rfl | ⟨rfl, -⟩ <;> simp

/-- The last symbol of a terminator ends the line; before it there is nothing but the carriage
return of a pair. -/
theorem IsTerminator.split {following : Option σ} {terminator : List σ}
    (h : IsTerminator following terminator) :
    ∃ before last, terminator = before ++ [last] ∧
      (before = [] ∨ before = [Symbol.carriageReturn] ∧ last = Symbol.lineFeed) ∧
      (last = Symbol.lineFeed ∨
        last = Symbol.carriageReturn ∧ following ≠ some Symbol.lineFeed) := by
  rcases h with rfl | rfl | ⟨rfl, hfollowing⟩
  · exact ⟨[], _, rfl, Or.inl rfl, Or.inl rfl⟩
  · exact ⟨[_], _, rfl, Or.inr ⟨rfl, rfl⟩, Or.inl rfl⟩
  · exact ⟨[], _, rfl, Or.inl rfl, Or.inr ⟨rfl, hfollowing⟩⟩

namespace Tape

@[simp] theorem endsLine_eq (a : σ) :
    endsLine a = decide (a = Symbol.lineFeed ∨ a = Symbol.carriageReturn) := by
  simp [endsLine]

theorem plain_line (x : List σ) : IsPlain (line x) := by
  intro a ha
  have hplain := List.all_eq_true.mp List.all_takeWhile a ha
  simpa using hplain

end Tape

theorem exists_terminator {a : σ} (ends : a = Symbol.lineFeed ∨ a = Symbol.carriageReturn)
    (x : List σ) :
    ∃ terminator rest, a :: x = terminator ++ rest ∧ IsTerminator rest.head? terminator := by
  rcases ends with rfl | rfl
  · exact ⟨[_], x, rfl, Or.inl rfl⟩
  · by_cases hpair : x.head? = some Symbol.lineFeed
    · obtain ⟨rest, rfl⟩ := List.head?_eq_some_iff.mp hpair
      exact ⟨[_, _], rest, rfl, Or.inr (Or.inl rfl)⟩
    · exact ⟨[_], x, rfl, Or.inr (Or.inr ⟨rfl, hpair⟩)⟩

/-- Each text can be cut into lines. -/
theorem exists_lined (x : List σ) : ∃ pieces, Lined x pieces := by
  induction hlength : x.length using Nat.strongRecOn generalizing x with
  | ind length ih =>
    have hsplit : Tape.line x ++ x.dropWhile (!Tape.endsLine ·) = x :=
      List.takeWhile_append_dropWhile
    have hplain := Tape.plain_line x
    cases hdrop : x.dropWhile (!Tape.endsLine ·) with
    | nil =>
      rw [hdrop, List.append_nil] at hsplit
      rw [hsplit] at hplain
      cases x with
      | nil => exact ⟨_, .empty⟩
      | cons a x => exact ⟨_, .last (List.cons_ne_nil a x) hplain⟩
    | cons a after =>
      have hfirst := List.head?_dropWhile_not (!Tape.endsLine ·) x
      rw [hdrop] at hfirst
      have hends : a = Symbol.lineFeed ∨ a = Symbol.carriageReturn :=
        Decidable.or_iff_not_imp_left.mpr (by simpa using hfirst)
      obtain ⟨terminator, rest, hcut, hterminator⟩ := exists_terminator hends after
      have hwhole : Tape.line x ++ terminator ++ rest = x := by
        rw [List.append_assoc, ← hcut, ← hdrop, hsplit]
      have hshorter : rest.length < length := by
        have hsome := List.length_pos_iff.mpr hterminator.ne_nil
        have hlengths := congrArg List.length hwhole
        simp only [List.length_append] at hlengths
        omega
      obtain ⟨more, hmore⟩ := ih rest.length hshorter rest rfl
      have hlined := Lined.ended hplain hterminator hmore
      rw [hwhole] at hlined
      exact ⟨_, hlined⟩

/-! ## Reading line by line -/

namespace Tape

theorem line_plain {x : List σ} (plain : IsPlain x) (y : List σ) : line (x ++ y) = x ++ line y := by
  rw [line, line, List.takeWhile_append_of_pos]
  intro a ha
  obtain ⟨hfeed, hreturn⟩ := plain a ha
  simp [hfeed, hreturn]

theorem line_terminator {terminator rest : List σ} (h : IsTerminator rest.head? terminator) :
    line (terminator ++ rest) = [] ∧ Tape.terminator (terminator ++ rest) = terminator.length := by
  rcases h with rfl | rfl | ⟨rfl, hfollowing⟩
  · simp [line, Tape.terminator, Symbol.lineFeed_ne_carriageReturn]
  · simp [line, Tape.terminator]
  · cases rest with
    | nil => simp [line, Tape.terminator]
    | cons a rest => simp_all [line, Tape.terminator]

/-- Reading a line returns the first line and passes its terminator too. -/
theorem serve_readLine {t : Tape σ} {x terminator rest : List σ} (plain : IsPlain x)
    (h : IsTerminator rest.head? terminator) (unread : t.unread = x ++ terminator ++ rest) :
    (t.serve .readLine).1 = .many x ∧ (t.serve .readLine).2.unread = rest := by
  obtain ⟨hnone, hcount⟩ := line_terminator h
  have hline : line t.unread = x := by
    rw [unread, List.append_assoc, line_plain plain, hnone, List.append_nil]
  have hpassed : passedByLine t.unread = x.length + terminator.length := by
    rw [passedByLine, hline, unread, List.append_assoc, List.drop_left, hcount]
  refine ⟨congrArg Reading.many hline, ?_⟩
  change t.unread.drop (passedByLine t.unread) = rest
  rw [hpassed, unread, ← List.length_append, List.drop_left]

/-- Reading a line where the text has no more terminators returns all of it. -/
theorem serve_readLine_last {t : Tape σ} (plain : IsPlain t.unread) :
    (t.serve .readLine).1 = .many t.unread ∧ (t.serve .readLine).2.unread = [] := by
  have hline : line t.unread = t.unread := by simpa [line] using line_plain plain []
  refine ⟨congrArg Reading.many hline, ?_⟩
  change t.unread.drop (passedByLine t.unread) = []
  rw [passedByLine, hline, List.drop_length]
  exact List.drop_length

theorem serveAll_readLine_nil (count : Nat) {t : Tape σ} (unread : t.unread = []) :
    (t.serveAll (List.replicate count .readLine)).2.unread = [] := by
  induction count generalizing t with
  | zero => exact unread
  | succ count ih =>
    apply ih
    exact (serve_readLine_last (by simp [unread, IsPlain])).2

/-- Reading line by line returns the lines of the text, and leaves symbols unread as long as there
are lines left. -/
theorem serveAll_readLine {x : List σ} {pieces : List (List σ × List σ)} (lined : Lined x pieces)
    {t : Tape σ} (unread : t.unread = x) :
    (t.serveAll (List.replicate pieces.length .readLine)).1 =
        pieces.map (fun piece => .many piece.1) ∧
      ∀ count, (t.serveAll (List.replicate count .readLine)).2.unread ≠ [] ↔
        count < pieces.length := by
  induction lined generalizing t with
  | empty => exact ⟨rfl, fun count => by simp [serveAll_readLine_nil count unread]⟩
  | last hne hplain =>
    subst unread
    obtain ⟨hanswer, hover⟩ := serve_readLine_last hplain
    refine ⟨congrArg (· :: []) hanswer, fun count => ?_⟩
    cases count with
    | zero => simpa [serveAll] using hne
    | succ count =>
      have hnil := serveAll_readLine_nil count hover
      simpa [List.replicate_succ, serveAll] using hnil
  | ended hplain hterminator hmore ih =>
    obtain ⟨hanswer, hrest⟩ := serve_readLine hplain hterminator unread
    obtain ⟨hanswers, hleft⟩ := ih hrest
    refine ⟨List.cons_eq_cons.mpr ⟨hanswer, hanswers⟩, fun count => ?_⟩
    cases count with
    | zero => simp [serveAll, unread, hterminator.ne_nil]
    | succ count => simpa [List.replicate_succ, serveAll] using hleft count

end Tape

/-! ## The nodes of a line -/

namespace Input

variable {input : Input σ} {i : Nat}

/-- The nodes from a place on are those of the text from there, started at the position
of that place. -/
theorem position_add (x y : List σ) (start : Position) (i : Nat) :
    (Input.mk (x ++ y) start).position (x.length + i) =
      (Input.mk y ((Input.mk (x ++ y) start).position x.length)).position i := by
  induction i with
  | zero => rfl
  | succ i ih =>
    rw [← Nat.add_assoc, position, position, ih]
    simp only [List.getElem?_append_right (Nat.le_add_right x.length i), Nat.add_assoc,
      Nat.add_sub_cancel_left,
      List.getElem?_append_right (Nat.le_add_right x.length (i + 1))]

/-- Along symbols that end no line the column goes up with the index. -/
theorem position_plain {x : List σ} (plain : IsPlain x) (y : List σ) (start : Position) {i : Nat}
    (le : i ≤ x.length) :
    (Input.mk (x ++ y) start).position i = ⟨start.line, start.column + i, start.index + i⟩ := by
  induction i with
  | zero => rfl
  | succ i ih =>
    obtain ⟨a, ha⟩ : ∃ a, x[i]? = some a := ⟨_, List.getElem?_eq_getElem le⟩
    obtain ⟨hfeed, hreturn⟩ := plain a (List.mem_of_getElem? ha)
    have hthere : (x ++ y)[i]? = some a := by rw [List.getElem?_append_left le, ha]
    rw [position_succ hthere, Position.past_within hfeed fun h => absurd h hreturn, ih (by omega)]
    rfl

/-- The nodes of the first line are on the line where the text starts, and the next line
starts after them. -/
theorem position_ended {x terminator rest : List σ} (start : Position) (plain : IsPlain x)
    (h : IsTerminator rest.head? terminator) :
    (∀ i < (x ++ terminator).length, (Input.mk (x ++ terminator ++ rest) start).position i =
      ⟨start.line, start.column + i, start.index + i⟩) ∧
    (Input.mk (x ++ terminator ++ rest) start).position (x ++ terminator).length =
      ⟨start.line + 1, 1, start.index + (x ++ terminator).length⟩ := by
  obtain ⟨before, last, rfl, hbefore, hlast⟩ := h.split
  have hplain : ∀ i ≤ x.length, (Input.mk (x ++ (before ++ [last]) ++ rest) start).position i =
      ⟨start.line, start.column + i, start.index + i⟩ := by
    intro i hi
    rw [List.append_assoc]
    exact position_plain plain _ start hi
  generalize hinput : Input.mk (x ++ (before ++ [last]) ++ rest) start = input at hplain
  have hsymbols : input.symbols = x ++ before ++ last :: rest := by simp [← hinput]
  have hwithin : ∀ i ≤ (x ++ before).length, input.position i =
      ⟨start.line, start.column + i, start.index + i⟩ := by
    intro i hi
    rcases hbefore with rfl | ⟨rfl, rfl⟩
    · exact hplain i (by simpa using hi)
    · rcases Nat.lt_or_eq_of_le hi with hlt | rfl
      · exact hplain i (by simp at hlt; omega)
      -- The line feed of a pair is still on the line.
      · have hreturn : input.symbols[x.length]? = some Symbol.carriageReturn := by simp [hsymbols]
        rw [List.length_append, List.length_singleton, position_succ hreturn,
          hplain _ (Nat.le_refl _),
          Position.past_within Symbol.lineFeed_ne_carriageReturn.symm fun _ => by simp [hsymbols]]
        rfl
  have hthere : input.symbols[(x ++ before).length]? = some last := by simp [hsymbols]
  have hfollowing : input.symbols[(x ++ before).length + 1]? = rest.head? := by
    rw [hsymbols, List.getElem?_append_right (by omega), Nat.add_sub_cancel_left,
      List.getElem?_cons_succ,
      List.head?_eq_getElem?]
  have hlength : (x ++ (before ++ [last])).length = (x ++ before).length + 1 := by simp; omega
  rw [hlength]
  constructor
  · exact fun i hi => hwithin i (by omega)
  · rw [position_succ hthere, hfollowing, Position.past_end hlast, hwithin _ (Nat.le_refl _)]
    rfl

/-- The symbols and the columns of the nodes on a line, in order. -/
def row (input : Input σ) (line : Nat) : List (Option σ × Nat) :=
  ((List.range input.symbols.length).filter fun i => (input.position i).line = line).map fun i =>
    (input.symbols[i]?, (input.position i).column)

/-- If the text begins with symbols that are all on the line where it starts, then these are first
in the row of that line, and what comes after them is in the rows of the rest of the text. -/
theorem row_append {x y : List σ} {start : Position}
    (h : ∀ i < x.length, (Input.mk (x ++ y) start).position i =
      ⟨start.line, start.column + i, start.index + i⟩)
    (line : Nat) :
    (Input.mk (x ++ y) start).row line =
      (if line = start.line then (x.map some).zip (List.range' start.column x.length) else []) ++
        (Input.mk y ((Input.mk (x ++ y) start).position x.length)).row line := by
  rw [row, List.length_append, List.range_add, List.filter_append, List.map_append]
  congr 1
  · split
    · subst line
      rw [List.filter_eq_self.mpr]
      · apply List.ext_getElem
        · simp
        · intro i hi _
          have hlt : i < x.length := by simpa using hi
          simp [h i hlt, List.getElem?_append_left hlt]
      · intro i hi
        rw [h i (List.mem_range.mp hi)]
        simp
    · rw [List.filter_eq_nil_iff.mpr]
      · rfl
      · intro i hi
        rw [h i (List.mem_range.mp hi)]
        simp
        omega
  · rw [row, List.filter_map, List.map_map]
    simp only [Function.comp_def, position_add, List.getElem?_append_right
      (Nat.le_add_right x.length _),
      Nat.add_sub_cancel_left]

end Input

/-- Each piece of the text is the row of its own line; the columns go on from the start of the text
in the first line, and from 1 in the others. -/
theorem Lined.rows {x : List σ} {pieces : List (List σ × List σ)} (lined : Lined x pieces)
    (start : Position) :
    (∀ i < x.length, ∃ k < pieces.length, ((Input.mk x start).position i).line = start.line + k) ∧
    (∀ (k : Nat) (h : k < pieces.length), (Input.mk x start).row (start.line + k) =
      ((pieces[k].1 ++ pieces[k].2).map some).zip
        (List.range' (if k = 0 then start.column else 1) (pieces[k].1 ++ pieces[k].2).length)) ∧
    ((Input.mk x start).position x.length).line = start.line + (pieces.filter fun piece =>
      piece.2 ≠ []).length := by
  induction lined generalizing start with
  | empty => exact ⟨nofun, nofun, rfl⟩
  | last hne hplain =>
    rename_i line
    have hposition : ∀ i ≤ line.length, (Input.mk (line ++ []) start).position i =
        ⟨start.line, start.column + i, start.index + i⟩ := fun i hi =>
          Input.position_plain hplain [] start hi
    have hrow := Input.row_append fun i hi => hposition i (Nat.le_of_lt hi)
    simp only [List.append_nil] at hposition hrow
    refine ⟨?_, ?_, ?_⟩
    · intro i hi
      rw [hposition i (Nat.le_of_lt hi)]
      exact ⟨0, Nat.zero_lt_one, rfl⟩
    · intro k hk
      obtain rfl : k = 0 := by simpa using hk
      rw [hrow]
      simp [Input.row]
    · rw [hposition _ (Nat.le_refl _)]
      simp
  | ended hplain hterminator hmore ih =>
    rename_i line terminator rest more
    obtain ⟨hfirst, hnext⟩ := Input.position_ended start hplain hterminator
    have hrow := Input.row_append hfirst
    have hshift := Input.position_add (line ++ terminator) rest start
    obtain ⟨hlines, hrows, hlast⟩ :=
      ih ⟨start.line + 1, 1, start.index + (line ++ terminator).length⟩
    rw [hnext] at hrow hshift
    generalize hafter : Position.mk (start.line + 1) 1 (start.index + (line ++ terminator).length) =
      after at *
    have hline : after.line = start.line + 1 := by rw [← hafter]
    have hcolumn : after.column = 1 := by rw [← hafter]
    simp only [hline, hcolumn, ite_self] at hlines hrows hlast
    refine ⟨?_, ?_, ?_⟩
    · intro i hi
      by_cases hlt : i < (line ++ terminator).length
      · rw [hfirst i hlt]
        exact ⟨0, Nat.succ_pos _, rfl⟩
      · obtain ⟨j, rfl⟩ := Nat.exists_eq_add_of_le (Nat.le_of_not_lt hlt)
        have hj : j < rest.length := by simpa [← Nat.add_assoc] using hi
        obtain ⟨k, hk, hfound⟩ := hlines j hj
        rw [hshift, hfound]
        exact ⟨k + 1, Nat.succ_lt_succ hk, by omega⟩
    · intro k hk
      rw [hrow]
      cases k with
      | zero =>
        -- No line of the rest is the first line.
        have hnone : (Input.mk rest after).row start.line = [] := by
          apply List.map_eq_nil_iff.mpr
          apply List.filter_eq_nil_iff.mpr
          intro i hi
          obtain ⟨k, -, hfound⟩ := hlines i (List.mem_range.mp hi)
          simp only [decide_eq_true_eq]
          omega
        rw [Nat.add_zero, hnone, if_pos rfl, if_pos rfl, List.append_nil]
        rfl
      | succ k =>
        have hother : start.line + (k + 1) = start.line + 1 + k := by omega
        rw [if_neg (by omega), List.nil_append, hother, hrows k (by simpa using hk)]
        simp
    · rw [List.length_append, hshift, hlast, List.filter_cons_of_pos
        (by simpa using hterminator.ne_nil)]
      simp only [List.length_cons]
      omega

/-- The symbols and the columns on a line, found among the nodes. -/
theorem Input.row_nodes (input : Input σ) (line : Nat) :
    input.row line =
      (((List.range input.symbols.length).map input.node).filter
        fun s => s.position.line = line).map fun s => (s.current, s.position.column) := by
  rw [row, List.filter_map, List.map_map]
  rfl

/-- A row is known by its symbols and its columns. -/
theorem Input.row_unzip {input : Input σ} {line first : Nat} {symbols : List σ}
    (h : input.row line = (symbols.map some).zip (List.range' first symbols.length)) :
    let found := ((List.range input.symbols.length).map input.node).filter fun s =>
      s.position.line = line
    found.map Stream.current = symbols.map some ∧
      found.map (fun s => s.position.column) = List.range' first symbols.length := by
  intro found
  rw [row_nodes] at h
  constructor
  · have hsymbols := congrArg (List.map Prod.fst) h
    rw [List.map_map, List.map_fst_zip (by simp)] at hsymbols
    exact hsymbols
  · have hcolumns := congrArg (List.map Prod.snd) h
    rw [List.map_map, List.map_snd_zip (by simp)] at hcolumns
    exact hcolumns

/-- Reading line by line and following the streams by their positions find the same lines in a text,
whatever the sources, their pieces and the room in the windows. Each line that is read is, with its
terminator, what the streams with its line number spell; their columns follow each other. No stream
before the end has another line number, and the end of the text stands on the line after all lines
that are ended. -/
theorem lines_agree [Source τ σ] [Source υ σ] (input : Input σ) {source : τ} {capacity : Nat}
    {window : Window τ σ} (honest : Honest source input.symbols)
    (opened : Window.withCapacity source capacity = .ok window) {script : υ} {room : Nat}
    {reader : Window υ σ} (truthful : Honest script input.symbols)
    (started : Window.withCapacity script room = .ok reader)
    (fits : ∀ i ≤ input.symbols.length, (input.position i).Fits) :
    ∃ pieces, Lined input.symbols pieces ∧
      (reader.serveAll (List.replicate pieces.length .readLine)).1 =
        pieces.map (fun piece => .many piece.1) ∧
      (∀ count,
        (∃ a, ((reader.serveAll (List.replicate count .readLine)).2.peek 1).1 = .ok (some a)) ↔
          count < pieces.length) ∧
      ∃ node : Nat → Stream σ,
        (∀ i ≤ input.symbols.length, ((Chain.ofWindow window input.start).2.consumeTimes
          (Chain.ofWindow window input.start).1 i).1 = .ok (node i)) ∧
        (∀ (k : Nat) (h : k < pieces.length),
          let text := pieces[k].1 ++ pieces[k].2
          let found := ((List.range input.symbols.length).map node).filter fun s =>
            s.position.line = input.start.line + k
          found.map Stream.current = text.map some ∧
          found.map (fun s => s.position.column) =
            List.range' (if k = 0 then input.start.column else 1) text.length) ∧
        (∀ i < input.symbols.length,
          ∃ k < pieces.length, (node i).position.line = input.start.line + k) ∧
        (node input.symbols.length).current = none ∧
        (node input.symbols.length).position.line =
          input.start.line + (pieces.filter fun piece => piece.2 ≠ []).length := by
  obtain ⟨pieces, lined⟩ := exists_lined input.symbols
  obtain ⟨hlines, hrows, hlast⟩ := lined.rows input.start
  have hholds : window.Holds Honest input.symbols := Window.holds_withCapacity opened honest
  have hstarted : reader.Holds Honest (Tape.ofList input.symbols).unread :=
    Window.holds_withCapacity started truthful
  obtain ⟨hanswers, hleft⟩ := Tape.serveAll_readLine lined (t := Tape.ofList input.symbols) rfl
  refine ⟨pieces, lined, ?_, ?_, input.node, ?_, ?_, hlines, ?_, hlast⟩
  · exact (Window.serveAll_holds serves_honest _ hstarted).1.trans hanswers
  · intro count
    have hafter := (Window.serveAll_holds serves_honest (List.replicate count .readLine) hstarted).2
    rw [(Window.peek_holds serves_honest hafter 1).1, ← hleft count]
    simp [Tape.peek, Window.deepest, List.getElem?_eq_some_iff, ← List.length_pos_iff]
  · intro i hi
    obtain ⟨after, hwalked, -⟩ := Chain.consumeTimes_eq serves_honest hholds hi fun k hk =>
      fits k (by omega)
    exact congrArg Prod.fst hwalked
  · exact fun k hk => Input.row_unzip (hrows k hk)
  · exact List.getElem?_eq_none (Nat.le_refl _)

/-- Three lines, each with another terminator, in pieces that part the pair of the first: what is
read of them, and what the streams with their line numbers spell. -/
theorem lines_agree_pieces :
    let script := Pieces.mk [['a', '\r'], ['\n', '\r', 'b'], ['\n']]
    let input : Input Char := ⟨['a', '\r', '\n', '\r', 'b', '\n'], ⟨3, 7, 5⟩⟩
    let window : Window (Pieces Char) Char := ⟨script, #[], 0, 1, false, #[]⟩
    let first := (Chain.ofWindow window input.start).1
    let chain := (Chain.ofWindow window input.start).2
    ∃ pieces, Lined input.symbols pieces ∧ pieces.map Prod.fst = [['a'], [], ['b']] ∧
    ∃ node : Nat → Stream Char,
      (∀ i ≤ 6, (chain.consumeTimes first i).1 = .ok (node i)) ∧
      ∀ (k : Nat) (h : k < pieces.length),
        (((List.range 6).map node).filter fun s => s.position.line = 3 + k).map Stream.current =
          (pieces[k].1 ++ pieces[k].2).map some := by
  intro script input window first chain
  have honest : Honest script input.symbols := honest_pieces (by decide)
  have opened : Window.withCapacity script 0 = .ok window := rfl
  have hsecond : ((window.serveAll (List.replicate 2 .readLine)).2.peek 1).1 = .ok (some 'b') := by
    cbv
  have hthird : ((window.serveAll (List.replicate 3 .readLine)).2.peek 1).1 = .ok none := by cbv
  have hread : (window.serveAll (List.replicate 3 .readLine)).1 =
      [.many ['a'], .many [], .many ['b']] := by
    cbv
  obtain ⟨pieces, lined, lines, more, node, reached, rows, -⟩ :=
    lines_agree input honest opened honest opened (by decide +kernel)
  have hlength : pieces.length = 3 := by
    have htwo := (more 2).mp ⟨'b', hsecond⟩
    have hthree : ¬ 3 < pieces.length := by
      intro hlt
      obtain ⟨a, ha⟩ := (more 3).mpr hlt
      cases hthird.symm.trans ha
    omega
  have hlines : pieces.map Prod.fst = [['a'], [], ['b']] := by
    rw [hlength, hread] at lines
    apply (List.map_inj_right (f := Reading.many) fun _ _ h => Reading.many.inj h).mp
    rw [List.map_map]
    exact lines.symm
  exact ⟨pieces, lined, hlines, node, reached, fun k hk => (rows k hk).1⟩

end Rewind
