import GoYcsb.Measurement.Impl.Output
import GoYcsb.Tool.Impl.Report

/-!
This module contains the verification of the report tool's reading of one line: it gets back the operation and the
numbers that the histograms have printed.
-/

namespace Util

theorem renderArgs_eq {headers cells : List Bytes} (h : headers.length = cells.length)
    : renderArgs headers cells = .ret ((headers.zip cells).map (fun arg => arg.1 ++ Bytes.ofAscii ": " ++ arg.2)) := by
  induction headers generalizing cells with
  | nil => rfl
  | cons header headers ih =>
    cases cells with
    | nil => cases h
    | cons cell cells =>
      unfold renderArgs
      rw [ih (Nat.succ.inj h)]
      rfl

end Util

namespace Report

def entry (arg : Bytes × Bytes) : Bytes := arg.1 ++ Bytes.ofAscii ": " ++ arg.2

def entries (args : List (Bytes × Bytes)) : Bytes := Strings.join (Bytes.ofAscii ", ") (args.map entry)

structure Plain (b : Bytes) : Prop where
  trimmed : Strings.Trimmed b
  colon : 58 ∉ b
  comma : 44 ∉ b
  dash : 45 ∉ b
  newline : 10 ∉ b

structure PlainArg (arg : Bytes × Bytes) : Prop where
  key : Plain arg.1
  value : Plain arg.2

theorem Plain.sep {b : Bytes} (h : Plain b) : ∀ c ∈ b, statFieldFunc c = false := by
  intro c hc
  unfold statFieldFunc
  rw [Bool.or_eq_false_iff, beq_eq_false_iff_ne, beq_eq_false_iff_ne]
  constructor
  . rintro rfl
    exact h.colon hc
  . rintro rfl
    exact h.comma hc

theorem PlainArg.trimmed_entry {arg : Bytes × Bytes} (h : PlainArg arg) : Strings.Trimmed (entry arg) :=
  h.key.trimmed.append h.value.trimmed _

theorem mem_entries {args : List (Bytes × Bytes)} {c : UInt8} (h : c ∈ entries args)
    : c ∈ Bytes.ofAscii ", " ++ Bytes.ofAscii ": " ∨ ∃ arg ∈ args, c ∈ arg.1 ∨ c ∈ arg.2 := by
  cases Strings.mem_join h with
  | inl hsep => exact .inl (List.mem_append_left _ hsep)
  | inr hargs =>
    rcases hargs with ⟨b, hb, hc⟩
    rcases List.mem_map.mp hb with ⟨arg, harg, rfl⟩
    unfold entry at hc
    rw [List.mem_append, List.mem_append] at hc
    rcases hc with (hkey | hsep) | hvalue
    . exact .inr ⟨arg, harg, .inl hkey⟩
    . exact .inl (List.mem_append_right _ hsep)
    . exact .inr ⟨arg, harg, .inr hvalue⟩

theorem not_mem_entries {args : List (Bytes × Bytes)} {c : UInt8} (hc : c ∉ Bytes.ofAscii ", " ++ Bytes.ofAscii ": ")
    (hargs : ∀ arg ∈ args, c ∉ arg.1 ∧ c ∉ arg.2)
    : c ∉ entries args := by
  intro hmem
  rcases mem_entries hmem with hsep | ⟨arg, harg, hkey | hvalue⟩
  . exact hc hsep
  . exact (hargs arg harg).1 hkey
  . exact (hargs arg harg).2 hvalue

theorem trimmed_entries {args : List (Bytes × Bytes)} (hne : args ≠ []) (h : ∀ arg ∈ args, PlainArg arg)
    : Strings.Trimmed (entries args) := by
  apply Strings.Trimmed.join
  . simpa using hne
  . intro b hb
    rcases List.mem_map.mp hb with ⟨arg, harg, rfl⟩
    exact (h arg harg).trimmed_entry

section Fields

def kvs (args : List (Bytes × Bytes)) : List Bytes := args.flatMap (fun arg => [32 :: arg.1, 32 :: arg.2])

theorem sep_cons {b : Bytes} (h : Plain b) : ∀ c ∈ 32 :: b, statFieldFunc c = false := by
  rw [List.forall_mem_cons]
  exact ⟨rfl, h.sep⟩

theorem fieldsFunc_entries (start : Bytes) (arg : Bytes × Bytes) (args : List (Bytes × Bytes))
    (hstart : ∀ c ∈ start, statFieldFunc c = false) (harg : PlainArg arg) (hargs : ∀ arg ∈ args, PlainArg arg)
    : Strings.fieldsFunc statFieldFunc (start ++ entries (arg :: args))
        =
      (start ++ arg.1) :: (32 :: arg.2) :: kvs args := by
  have hkey : ∀ c ∈ start ++ arg.1, statFieldFunc c = false := by
    rw [List.forall_mem_append]
    exact ⟨hstart, harg.key.sep⟩
  have hne : start ++ arg.1 ≠ [] := List.append_ne_nil_of_right_ne_nil start harg.key.trimmed.ne_nil
  induction args generalizing start arg with
  | nil =>
    have htext : start ++ entries [arg] = (start ++ arg.1) ++ 58 :: (32 :: arg.2) := by
      unfold entries
      rw [List.map_singleton, Strings.join_singleton, List.append_assoc]
      simp only [entry, List.append_assoc]
      rfl
    rw [htext, Strings.fieldsFunc_append_cons hkey hne rfl]
    rw [Strings.fieldsFunc_of_not_mem (sep_cons harg.value) (List.cons_ne_nil _ _)]
    rfl
  | cons arg' args ih =>
    rw [List.forall_mem_cons] at hargs
    have htext : start ++ entries (arg :: arg' :: args)
        = (start ++ arg.1) ++ 58 :: ((32 :: arg.2) ++ 44 :: ([32] ++ entries (arg' :: args))) := by
      unfold entries
      rw [List.map_cons, List.map_cons, Strings.join_cons_cons]
      simp only [entry, List.append_assoc]
      rfl
    rw [htext, Strings.fieldsFunc_append_cons hkey hne rfl]
    rw [Strings.fieldsFunc_append_cons (sep_cons harg.value) (List.cons_ne_nil _ _) rfl]
    rw [ih [32] arg' (List.forall_mem_singleton.mpr rfl) hargs.1 hargs.2 (sep_cons hargs.1.key) (List.cons_ne_nil _ _)]
    rfl

variable {F : Type} (S : Strconv F)

def readArg (s : Stat F) (arg : Bytes × Bytes) : Except String (Stat F) := (S.parseFloat arg.2).map (s.set arg.1)

theorem newStatLoop_cons {rest : List Bytes} {f : Stat F → Except String (Stat F)}
    (hrest : ∀ s, newStatLoop S rest s = .ret (f s)) (key value : Bytes) (s : Stat F)
    : newStatLoop S (key :: value :: rest) s
        =
      .ret (readArg S s (Strings.trimSpace key, Strings.trimSpace value) >>= f) := by
  unfold newStatLoop readArg
  dsimp only
  cases S.parseFloat (Strings.trimSpace value) with
  | error err => rfl
  | ok v => exact hrest _

theorem newStatLoop_kvs {args : List (Bytes × Bytes)} (hargs : ∀ arg ∈ args, PlainArg arg) (s : Stat F)
    : newStatLoop S (kvs args) s = .ret (args.foldlM (readArg S) s) := by
  induction args generalizing s with
  | nil => rfl
  | cons arg args ih =>
    rw [List.forall_mem_cons] at hargs
    have hkvs : kvs (arg :: args) = (32 :: arg.1) :: (32 :: arg.2) :: kvs args := rfl
    rw [hkvs, newStatLoop_cons S (ih hargs.2)]
    rw [hargs.1.key.trimmed.trimSpace_cons, hargs.1.value.trimmed.trimSpace_cons, List.foldlM_cons]

theorem newStat_entries {args : List (Bytes × Bytes)} (hne : args ≠ []) (hargs : ∀ arg ∈ args, PlainArg arg)
    : newStat S (entries args) = .ret (args.foldlM (readArg S) ⟨S.zero, S.zero⟩) := by
  cases args with
  | nil => contradiction
  | cons arg args =>
    rw [List.forall_mem_cons] at hargs
    have hfields := fieldsFunc_entries [] arg args (by simp) hargs.1 hargs.2
    rw [List.nil_append, List.nil_append] at hfields
    unfold newStat
    rw [hfields, newStatLoop_cons S (newStatLoop_kvs S hargs.2)]
    rw [hargs.1.key.trimmed.trimSpace, hargs.1.value.trimmed.trimSpace_cons, List.foldlM_cons]

variable {S}

theorem foldlM_readArg {args : List (Bytes × Bytes)} {num : Bytes → F}
    (h : ∀ arg ∈ args, S.parseFloat arg.2 = .ok (num arg.2)) (s : Stat F)
    : args.foldlM (readArg S) s = .ok (args.foldl (fun s arg => s.set arg.1 (num arg.2)) s) := by
  induction args generalizing s with
  | nil => rfl
  | cons arg args ih =>
    rw [List.forall_mem_cons] at h
    have hread : readArg S s arg = .ok (s.set arg.1 (num arg.2)) := by
      unfold readArg
      rw [h.1]
      rfl
    rw [List.foldlM_cons, hread]
    exact ih h.2 _

theorem foldlM_readArg_error {args : List (Bytes × Bytes)}
    (h : ∃ arg ∈ args, ∃ err, S.parseFloat arg.2 = .error err) (s : Stat F)
    : ∃ err, args.foldlM (readArg S) s = .error err := by
  induction args generalizing s with
  | nil => simp at h
  | cons arg args ih =>
    rw [List.foldlM_cons]
    cases hread : readArg S s arg with
    | error err => exact ⟨err, rfl⟩
    | ok s' =>
      -- the cell that cannot be read is among the others
      rcases h with ⟨arg', harg', err, herr⟩
      cases List.mem_cons.mp harg' with
      | inl heq =>
        subst heq
        unfold readArg at hread
        rw [herr] at hread
        cases hread
      | inr hmem => exact ih ⟨arg', hmem, err, herr⟩ s'

end Fields

section Line

variable {F : Type}

def Scan.record (s : Scan F) (op : Bytes) (stat : Stat F) : Scan F :=
  if s.handleSummary then { s with stat := { s.stat with summary := s.stat.summary.insert op stat } } else s

def printed (op : Bytes) (args : List (Bytes × Bytes)) : Bytes :=
  Strings.padRight 6 op ++ Bytes.ofAscii " - " ++ entries args

theorem printed_eq (op : Bytes) (args : List (Bytes × Bytes))
    : printed op args = (Strings.padRight 6 op ++ [32]) ++ 45 :: 32 :: entries args := by
  unfold printed
  rw [List.append_assoc, List.append_assoc]
  rfl

structure Name (op : Bytes) : Prop where
  trimmed : Strings.Trimmed op
  dash : 45 ∉ op
  newline : 10 ∉ op

theorem name_of_mem {op : Bytes} (h : op ∈ operations) : Name op := by
  have htrimmed : ∀ op ∈ operations, Strings.Trimmed op := by decide
  have hsep : ∀ op ∈ operations, 45 ∉ op ∧ 10 ∉ op := by decide
  exact ⟨htrimmed op h, (hsep op h).1, (hsep op h).2⟩

theorem not_mem_padded {op : Bytes} {c : UInt8} (hc : c ≠ 32) (hop : c ∉ op) : c ∉ Strings.padRight 6 op ++ [32] := by
  rw [Strings.padRight_concat, List.mem_append, List.mem_replicate]
  rintro (hmem | ⟨_, hblank⟩)
  . exact hop hmem
  . exact hc hblank

theorem newline_not_mem_printed {op : Bytes} (hop : Name op) {args : List (Bytes × Bytes)}
    (hargs : ∀ arg ∈ args, PlainArg arg)
    : 10 ∉ printed op args := by
  have hentries : 10 ∉ entries args := by
    apply not_mem_entries (by decide)
    intro arg harg
    exact ⟨(hargs arg harg).key.newline, (hargs arg harg).value.newline⟩
  rw [printed_eq, List.mem_append, List.mem_cons, List.mem_cons]
  rintro (hop' | hdash | hblank | hrest)
  . exact not_mem_padded (by decide) hop.newline hop'
  . cases hdash
  . cases hblank
  . exact hentries hrest

theorem split_printed {op : Bytes} (hop : Name op) {args : List (Bytes × Bytes)} (hargs : ∀ arg ∈ args, PlainArg arg)
    : Strings.split 45 (printed op args) = [Strings.padRight 6 op ++ [32], 32 :: entries args] := by
  have hrest : 45 ∉ 32 :: entries args := by
    rw [List.mem_cons, not_or]
    refine ⟨by decide, not_mem_entries (by decide) ?_⟩
    intro arg harg
    exact ⟨(hargs arg harg).key.dash, (hargs arg harg).value.dash⟩
  rw [printed_eq, Strings.split_append_cons (not_mem_padded (by decide) hop.dash), Strings.split_of_not_mem hrest]

theorem trimSpace_printed {op : Bytes} (hop : Name op) {args : List (Bytes × Bytes)}
    (hargs : ∀ arg ∈ args, PlainArg arg)
    : Strings.trimSpace ((Strings.split 45 (printed op args)).headD []) = op := by
  rw [split_printed hop hargs, List.headD_cons, Strings.padRight_concat]
  exact hop.trimmed.trimSpace_blanks _

-- A shorter name and the blanks and the dash after it are not the start of the line that ends a run.
theorem finished_not_prefix
    : ∀ n < 12,
        ¬ Bytes.ofAscii "Run finished"
            <+: Strings.padRight 6 ((Bytes.ofAscii "Run finished").take n) ++ Bytes.ofAscii " - "
          ∧
        ¬ Strings.padRight 6 ((Bytes.ofAscii "Run finished").take n) ++ Bytes.ofAscii " - "
            <+: Bytes.ofAscii "Run finished" := by
  decide

theorem not_hasPrefix_printed {op : Bytes} (h : Strings.hasPrefix (Bytes.ofAscii "Run finished") op = false)
    (args : List (Bytes × Bytes))
    : Strings.hasPrefix (Bytes.ofAscii "Run finished") (printed op args) = false := by
  rw [Bool.eq_false_iff]
  intro hprinted
  have hfinished := List.isPrefixOf_iff_prefix.mp hprinted
  have hop : op <+: printed op args := by
    rw [printed_eq, Strings.padRight_concat, List.append_assoc]
    exact List.prefix_append _ _
  have hnot : ¬ Bytes.ofAscii "Run finished" <+: op := by
    intro hprefix
    rw [Strings.hasPrefix, List.isPrefixOf_iff_prefix.mpr hprefix] at h
    cases h
  have hshorter := (List.prefix_or_prefix_of_prefix hfinished hop).resolve_left hnot
  have hlength : op.length < 12 := by
    apply lt_of_not_ge
    intro hge
    exact hnot (hshorter.eq_of_length_le hge ▸ List.prefix_refl op)
  have hstart := finished_not_prefix op.length hlength
  rw [← List.prefix_iff_eq_take.mp hshorter] at hstart
  cases List.prefix_or_prefix_of_prefix hfinished (List.prefix_append _ _) with
  | inl hprefix => exact hstart.1 hprefix
  | inr hprefix => exact hstart.2 hprefix

theorem handleLine_printed (S : Strconv F) {op : Bytes} (hop : op ∈ operations) {args : List (Bytes × Bytes)}
    (hne : args ≠ []) (hargs : ∀ arg ∈ args, PlainArg arg) (s : Scan F)
    : handleLine S s (printed op args)
        =
      .ret ((args.foldlM (readArg S) ⟨S.zero, S.zero⟩).map (fun stat => s.record op stat)) := by
  have hhead := trimSpace_printed (name_of_mem hop) hargs
  have hrunning : ∀ op ∈ operations, Strings.hasPrefix (Bytes.ofAscii "Run finished") op = false := by decide
  unfold handleLine
  simp only [not_hasPrefix_printed (hrunning op hop), hhead, hop, not_true, if_false, Bool.false_eq_true]
  rw [split_printed (name_of_mem hop) hargs, List.tail_cons]
  dsimp only
  rw [(trimmed_entries hne hargs).trimSpace_cons, newStat_entries S hne hargs, Outcome.ret_bind]
  cases args.foldlM (readArg S) ⟨S.zero, S.zero⟩ with
  | error err => rfl
  | ok stat =>
    unfold Scan.record
    cases s.handleSummary with
    | true => simp only [Except.map, if_true]
    | false => simp only [Except.map, Bool.false_eq_true, if_false]

end Line

section Row

def rowArgs (row : Measurement.Summary) : List (Bytes × Bytes) := Measurement.header.tail.zip row.cells

theorem rowArgs_ne_nil (row : Measurement.Summary) : rowArgs row ≠ [] := List.cons_ne_nil _ _

theorem plain_of_isNumeral {b : Bytes} (h : IsNumeral b) : Plain b where
  trimmed := h.trimmed
  colon := h.not_mem (by decide)
  comma := h.not_mem (by decide)
  dash := h.not_mem (by decide)
  newline := h.not_mem (by decide)

theorem plain_header : ∀ b ∈ Measurement.header.tail, Plain b := by
  have htrimmed : ∀ b ∈ Measurement.header.tail, Strings.Trimmed b := by decide
  have hsep : ∀ b ∈ Measurement.header.tail, 58 ∉ b ∧ 44 ∉ b ∧ 45 ∉ b ∧ 10 ∉ b := by decide
  intro b hb
  rcases hsep b hb with ⟨hcolon, hcomma, hdash, hnewline⟩
  exact ⟨htrimmed b hb, hcolon, hcomma, hdash, hnewline⟩

theorem plainArg_row {row : Measurement.Summary} (h : ∀ cell ∈ row.cells, IsNumeral cell)
    : ∀ arg ∈ rowArgs row, PlainArg arg := by
  intro arg harg
  have hmem := List.of_mem_zip (show (arg.1, arg.2) ∈ Measurement.header.tail.zip row.cells from harg)
  exact ⟨plain_header arg.1 hmem.1, plain_of_isNumeral (h arg.2 hmem.2)⟩

theorem foldl_row {F : Type} (num : Bytes → F) (row : Measurement.Summary) (s : Stat F)
    : (rowArgs row).foldl (fun s arg => s.set arg.1 (num arg.2)) s = ⟨num row.qps, num row.per99th⟩ := rfl

theorem renderRow_row (op : Bytes) (row : Measurement.Summary)
    : Util.renderRow Measurement.lineFormat Measurement.header (Measurement.line op row)
        =
      .ret (printed op (rowArgs row) ++ [10]) := by
  have hargs : Util.renderArgs Measurement.header.tail row.cells = .ret ((rowArgs row).map entry) :=
    Util.renderArgs_eq rfl
  show (Util.renderArgs Measurement.header.tail row.cells >>= _) = _
  rw [hargs]
  rfl

theorem renderRows_rows (rows : List (Bytes × Measurement.Summary)) (buf : Bytes)
    : Util.renderRows Measurement.lineFormat Measurement.header (rows.map (fun row => Measurement.line row.1 row.2)) buf
        =
      .ret (buf ++ Bufio.unlines (rows.map (fun row => printed row.1 (rowArgs row.2)))) := by
  induction rows generalizing buf with
  | nil =>
    unfold Util.renderRows
    rw [List.map_nil, List.map_nil]
    exact congrArg Outcome.ret (List.append_nil buf).symm
  | cons row rows ih =>
    rw [List.map_cons, List.map_cons, Util.renderRows, renderRow_row, Outcome.ret_bind, ih, Bufio.unlines_cons]
    rw [List.append_assoc, List.append_assoc]
    rfl

theorem renderString_rows (rows : List (Bytes × Measurement.Summary))
    : Util.renderString Measurement.lineFormat Measurement.header
        (rows.map (fun row => Measurement.line row.1 row.2))
        =
      .ret (Bufio.unlines (rows.map (fun row => printed row.1 (rowArgs row.2)))) := by
  unfold Util.renderString
  split
  . next hlength =>
    rw [List.length_map] at hlength
    rw [List.eq_nil_of_length_eq_zero hlength]
    rfl
  . rw [renderRows_rows]
    rfl

variable {P : Platform} {S : Strconv F64} {row : Measurement.Summary}

def number (P : Platform) (cell : Bytes) : F64 := F64.ofRat P (Numeral.value cell)

theorem mem_cells {arg : Bytes × Bytes} (h : arg ∈ rowArgs row) : arg.2 ∈ row.cells := (List.of_mem_zip h).2

theorem exists_arg {cell : Bytes} (h : cell ∈ row.cells) : ∃ arg ∈ rowArgs row, arg.2 = cell := by
  have hcells : (rowArgs row).map Prod.snd = row.cells := rfl
  rw [← hcells] at h
  exact List.mem_map.mp h

theorem handleLine_row (hS : S.Rounds P) {op : Bytes} (hop : op ∈ operations)
    (hcells : ∀ cell ∈ row.cells, IsNumeral cell) (hlimit : ∀ cell ∈ row.cells, Numeral.value cell < Strconv.limit)
    (s : Scan F64)
    : handleLine S s (printed op (rowArgs row))
        =
      .ret (.ok (s.record op ⟨number P row.qps, number P row.per99th⟩)) := by
  have hread : ∀ arg ∈ rowArgs row, S.parseFloat arg.2 = .ok (number P arg.2) := by
    intro arg harg
    exact hS.parse arg.2 (hcells _ (mem_cells harg)) (hlimit _ (mem_cells harg))
  rw [handleLine_printed S hop (rowArgs_ne_nil row) (plainArg_row hcells), foldlM_readArg hread, foldl_row]
  rfl

theorem handleLine_row_error (hS : S.Rounds P) {op : Bytes} (hop : op ∈ operations)
    (hcells : ∀ cell ∈ row.cells, IsNumeral cell) (hlimit : ∃ cell ∈ row.cells, Strconv.limit ≤ Numeral.value cell)
    (s : Scan F64)
    : ∃ err, handleLine S s (printed op (rowArgs row)) = .ret (.error err) := by
  have hread : ∃ arg ∈ rowArgs row, ∃ err, S.parseFloat arg.2 = .error err := by
    rcases hlimit with ⟨cell, hcell, hle⟩
    rcases exists_arg hcell with ⟨arg, harg, rfl⟩
    exact ⟨arg, harg, hS.range arg.2 (hcells _ hcell) hle⟩
  rcases foldlM_readArg_error hread ⟨S.zero, S.zero⟩ with ⟨err, herr⟩
  refine ⟨err, ?_⟩
  rw [handleLine_printed S hop (rowArgs_ne_nil row) (plainArg_row hcells), herr]
  rfl

theorem dropCR_row (op : Bytes) (hcells : ∀ cell ∈ row.cells, IsNumeral cell)
    : Bufio.dropCR (printed op (rowArgs row)) = printed op (rowArgs row) :=
  Bufio.dropCR_append _ (trimmed_entries (rowArgs_ne_nil row) (plainArg_row hcells))

theorem lines_row {op : Bytes} (hop : op ∈ operations) (hcells : ∀ cell ∈ row.cells, IsNumeral cell)
    : (Bufio.rawLines (Bufio.unlines [printed op (rowArgs row)])).map Bufio.dropCR = [printed op (rowArgs row)] := by
  rw [Bufio.rawLines_unlines]
  . rw [List.map_singleton, dropCR_row op hcells]
  . rw [List.forall_mem_singleton]
    exact newline_not_mem_printed (name_of_mem hop) (plainArg_row hcells)

end Row

/--
What is printed for an operation and a row of numerals is one line. The tool reads it as this operation with the numbers
of the OPS and 99th(us) cells if all the numerals are in the range of the floating point numbers. One that is not makes
the reading fail.
-/
theorem printed_row_read {P : Platform} {S : Strconv F64} (hS : S.Rounds P) {op : Bytes} (hop : op ∈ operations)
    (row : Measurement.Summary) (hcells : ∀ cell ∈ row.cells, IsNumeral cell)
    : ∃ out line,
        Util.renderString Measurement.lineFormat Measurement.header [Measurement.line op row] = .ret out
          ∧
        (Bufio.rawLines out).map Bufio.dropCR = [line]
          ∧
        ((∀ cell ∈ row.cells, Numeral.value cell < Strconv.limit) → ∀ s : Scan F64,
          handleLine S s line = .ret (.ok (s.record op ⟨number P row.qps, number P row.per99th⟩)))
          ∧
        ((∃ cell ∈ row.cells, Strconv.limit ≤ Numeral.value cell) → ∀ s : Scan F64,
          ∃ err, handleLine S s line = .ret (.error err)) := by
  refine ⟨_, _, renderString_rows [(op, row)], lines_row hop hcells, ?_, ?_⟩
  . intro hlimit s
    exact handleLine_row hS hop hcells hlimit s
  . intro hlimit s
    exact handleLine_row_error hS hop hcells hlimit s

def shortRow : Measurement.Summary where
  elapsed := Bytes.ofAscii "1.0"
  count := Bytes.ofAscii "2"
  qps := Bytes.ofAscii "2.0"
  avg := Bytes.ofAscii "310"
  min := Bytes.ofAscii "200"
  max := Bytes.ofAscii "420"
  per50th := Bytes.ofAscii "200"
  per90th := Bytes.ofAscii "420"
  per95th := Bytes.ofAscii "420"
  per99th := Bytes.ofAscii "420"
  per999th := Bytes.ofAscii "420"
  per9999th := Bytes.ofAscii "420"

theorem printed_row_read_short
    : ∃ out line,
        Util.renderString Measurement.lineFormat Measurement.header
          [Measurement.line (Bytes.ofAscii "READ") shortRow] = .ret out
          ∧
        (Bufio.rawLines out).map Bufio.dropCR = [line]
          ∧
        handleLine Strconv.exact ⟨true, ⟨Bytes.ofAscii "tikv", Bytes.ofAscii "workloadc", ∅⟩⟩ line
          =
        .ret (.ok ⟨true, ⟨Bytes.ofAscii "tikv", Bytes.ofAscii "workloadc",
          (∅ : GoMap Bytes (Stat F64)).insert (Bytes.ofAscii "READ") ⟨.fin 2, .fin 420⟩⟩⟩) := by
  rcases printed_row_read Strconv.rounds_exact (show Bytes.ofAscii "READ" ∈ operations by decide) shortRow
    (by decide) with ⟨out, line, hout, hline, hread, _⟩
  refine ⟨out, line, hout, hline, ?_⟩
  have hqps : number Platform.exactAmd64 shortRow.qps = .fin 2 := by decide +kernel
  have hper99th : number Platform.exactAmd64 shortRow.per99th = .fin 420 := by decide +kernel
  rw [hread (by decide +kernel), hqps, hper99th]
  rfl

def longRow : Measurement.Summary := { shortRow with max := 49 :: List.replicate 309 48 }

-- The largest power of ten that is a floating point number is 10^308.
theorem long_row_fails
    : (∀ cell ∈ longRow.cells, IsNumeral cell)
        ∧
      ∃ out line err,
        Util.renderString Measurement.lineFormat Measurement.header
          [Measurement.line (Bytes.ofAscii "READ") longRow] = .ret out
          ∧
        (Bufio.rawLines out).map Bufio.dropCR = [line]
          ∧
        handleLine Strconv.exact ⟨true, ⟨Bytes.ofAscii "tikv", Bytes.ofAscii "workloadc", ∅⟩⟩ line
          =
        .ret (.error err) := by
  have hop : Bytes.ofAscii "READ" ∈ operations := by decide
  have hcells : ∀ cell ∈ longRow.cells, IsNumeral cell := by decide +kernel
  have hlimit : ∃ cell ∈ longRow.cells, Strconv.limit ≤ Numeral.value cell := by decide +kernel
  rcases handleLine_row_error Strconv.rounds_exact hop hcells hlimit
    ⟨true, ⟨Bytes.ofAscii "tikv", Bytes.ofAscii "workloadc", ∅⟩⟩ with ⟨err, herr⟩
  exact ⟨hcells, _, _, err, renderString_rows [(Bytes.ofAscii "READ", longRow)], lines_row hop hcells, herr⟩

end Report
