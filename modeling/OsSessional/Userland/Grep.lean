import OsSessional.Userland.Match

/-!
# Lines through a fixed buffer

`grep` of `grep.c` reads into a buffer of 1024 bytes, prints the lines in it that match and keeps the
beginning of the next line for the next read. A buffer without a newline is dropped.
-/

namespace OsSessional.Userland

def newline : UInt8 := 10

/-- `strchr(p, c)`: the bytes of the string at `p` before the first `c`, and those behind it. -/
def strchr (c : UInt8) : List UInt8 → Option (List UInt8 × List UInt8)
  | [] => none
  | x :: text =>
    if x = c then some ([], text)
    else if x = 0 then none
    else (strchr c text).map fun found => (x :: found.1, found.2)

private theorem strchr_length {c : UInt8} {text line rest : List UInt8}
    (h : strchr c text = some (line, rest)) : rest.length < text.length := by
  induction text generalizing line with
  | nil => cases h
  | cons x text ih =>
    rw [strchr] at h
    split at h
    · cases h
      exact Nat.lt_succ_self _
    · split at h
      · cases h
      · rcases Option.map_eq_some_iff.mp h with ⟨found, hfound, heq⟩
        cases heq
        exact Nat.lt_succ_of_lt (ih hfound)

/-- The inner loop from `p`: what it writes, and the bytes from the last `p` on. -/
def printLines (pattern text : List UInt8) : List UInt8 × List UInt8 :=
  match _h : strchr newline text with
  | none => ([], text)
  | some (line, rest) =>
    let after := printLines pattern rest
    ((if match_ pattern line then line ++ [newline] else []) ++ after.1, after.2)
termination_by text.length
decreasing_by exact strchr_length ‹_›

/-- One turn of the outer loop, with `kept` in the buffer and `chunk` read: what it writes and what it
moves to the beginning of the buffer. -/
def pass (pattern kept chunk : List UInt8) : List UInt8 × List UInt8 :=
  let buf := kept ++ chunk
  let after := printLines pattern buf
  -- `p == buf`
  (after.1, if after.2.length = buf.length then [] else after.2)

/-- `grep`, with what the calls of `read` give before the end. -/
def grep (pattern : List UInt8) : List UInt8 → List (List UInt8) → List UInt8
  | _, [] => []
  | kept, chunk :: chunks =>
    let turn := pass pattern kept chunk
    turn.1 ++ grep pattern turn.2 chunks

/-- `sizeof(buf)-m-1` -/
def room (kept : List UInt8) : Nat := 1024 - kept.length - 1

/-- What the calls of `read` give for a regular file: all they ask for, while the file has that much. -/
def fileReads (pattern kept input : List UInt8) : List (List UInt8) :=
  if _h : min (room kept) input.length = 0 then []
  else
    let chunk := input.take (room kept)
    chunk :: fileReads pattern (pass pattern kept chunk).2 (input.drop (room kept))
termination_by input.length
decreasing_by
  rw [List.length_drop]
  omega

section Lines

variable {pattern text rest line kept c : List UInt8} {cs : List (List UInt8)}

/-- The lines of a text that a newline ends. -/
def terminated (text : List UInt8) : List (List UInt8) := (text.splitOn newline).dropLast

/-- What is behind the last newline. -/
def unended (text : List UInt8) : List UInt8 :=
  (text.splitOn newline).getLast (List.splitOn_ne_nil _ _)

/-- What the matching lines print. -/
def matching (pattern : List UInt8) (lines : List (List UInt8)) : List UInt8 :=
  lines.flatMap fun line => if match_ pattern line then line ++ [newline] else []

private theorem not_newline (h : newline ∉ text) : ∀ x ∈ text, (x == newline) = false := by
  intro x hx
  rw [beq_eq_false_iff_ne]
  intro heq
  exact h (heq ▸ hx)

private theorem splitOn_cons (h : newline ∉ line) :
    (line ++ newline :: rest).splitOn newline = line :: rest.splitOn newline := by
  rw [List.splitOn_eq_splitOnP, List.splitOn_eq_splitOnP]
  exact List.splitOnP_append_cons_of_forall_mem (not_newline h) newline (beq_self_eq_true newline)
    rest

private theorem splitOn_free (h : newline ∉ text) : text.splitOn newline = [text] := by
  rw [List.splitOn_eq_splitOnP]
  exact List.splitOnP_eq_singleton (not_newline h)

private theorem terminated_free (h : newline ∉ text) : terminated text = [] := by
  rw [terminated, splitOn_free h]
  rfl

private theorem terminated_cons (h : newline ∉ line) :
    terminated (line ++ newline :: rest) = line :: terminated rest := by
  rw [terminated, splitOn_cons h, List.dropLast_cons_of_ne_nil (List.splitOn_ne_nil _ _)]
  rfl

private theorem unended_free (h : newline ∉ text) : unended text = text := by
  simp only [unended, splitOn_free h, List.getLast_singleton]

private theorem unended_cons (h : newline ∉ line) :
    unended (line ++ newline :: rest) = unended rest := by
  simp only [unended, splitOn_cons h]
  exact List.getLast_cons (List.splitOn_ne_nil _ _)

private theorem lines_induction {P : List UInt8 → Prop} (free : ∀ text, newline ∉ text → P text)
    (cons : ∀ line rest, newline ∉ line → P rest → P (line ++ newline :: rest)) (text : List UInt8) :
    P text := by
  induction hn : text.length using Nat.strong_induction_on generalizing text with
  | h n ih =>
    by_cases hmem : newline ∈ text
    · rcases List.eq_append_cons_of_mem hmem with ⟨line, rest, rfl, hline⟩
      have hlength : rest.length < n := by
        rw [← hn, List.length_append, List.length_cons]
        omega
      exact cons line rest hline (ih rest.length hlength rest rfl)
    · exact free text hmem

private theorem newline_unended : newline ∉ unended text := by
  induction text using lines_induction with
  | free text h =>
    rw [unended_free h]
    exact h
  | cons line rest h ih =>
    rw [unended_cons h]
    exact ih

private theorem terminated_append (text rest : List UInt8) :
    terminated (text ++ rest) = terminated text ++ terminated (unended text ++ rest) := by
  induction text using lines_induction with
  | free text h =>
    rw [terminated_free h, unended_free h, List.nil_append]
  | cons line more h ih =>
    rw [List.append_assoc, List.cons_append, terminated_cons h, terminated_cons h, unended_cons h, ih,
      List.cons_append]

private theorem matching_append (lines more : List (List UInt8)) :
    matching pattern (lines ++ more) = matching pattern lines ++ matching pattern more := by
  rw [matching, List.flatMap_append]
  rfl

private theorem strchr_free {x : UInt8} (h : x ∉ text) : strchr x text = none := by
  induction text with
  | nil => rfl
  | cons y text ih =>
    have hy : y ≠ x := fun heq => h (heq ▸ List.mem_cons_self)
    rw [strchr, if_neg hy, ih fun hmem => h (List.mem_cons_of_mem y hmem)]
    exact ite_self _

private theorem strchr_cons (hline : newline ∉ line) (hzero : 0 ∉ line) (rest : List UInt8) :
    strchr newline (line ++ newline :: rest) = some (line, rest) := by
  induction line with
  | nil => rfl
  | cons x line ih =>
    have hx : x ≠ newline := fun heq => hline (heq ▸ List.mem_cons_self)
    have hx0 : x ≠ 0 := fun heq => hzero (heq ▸ List.mem_cons_self)
    rw [List.cons_append, strchr, if_neg hx, if_neg hx0, ih
      (fun hmem => hline (List.mem_cons_of_mem x hmem))
      (fun hmem => hzero (List.mem_cons_of_mem x hmem))]
    rfl

private theorem printLines_eq (hzero : 0 ∉ text) :
    printLines pattern text = (matching pattern (terminated text), unended text) := by
  induction text using lines_induction with
  | free text h =>
    have hnone := strchr_free h
    rw [printLines, terminated_free h, unended_free h]
    split
    · rfl
    · next hsome => rw [hnone] at hsome; cases hsome
  | cons line rest h ih =>
    rw [List.mem_append, List.mem_cons, not_or, not_or] at hzero
    have hsome := strchr_cons h hzero.1 rest
    rw [printLines, terminated_cons h, unended_cons h]
    split
    · next hnone => rw [hnone] at hsome; cases hsome
    · next line' rest' heq =>
      rw [hsome] at heq
      cases heq
      rw [ih hzero.2.2]
      rfl

/-- The bytes of the lines that are ended. -/
def ended (text : List UInt8) : Nat := (matching [] (terminated text)).length

private theorem match_nil : match_ [] text = true := by
  rw [match_, if_neg (by simp)]
  cases text <;> rfl

private theorem ended_free (h : newline ∉ text) : ended text = 0 := by
  rw [ended, terminated_free h]
  rfl

private theorem ended_append : ended (text ++ rest) = ended text + ended (unended text ++ rest) := by
  rw [ended, terminated_append, matching_append, List.length_append]
  rfl

private theorem ended_cons (h : newline ∉ line) :
    ended (line ++ newline :: rest) = line.length + 1 + ended rest := by
  rw [ended, terminated_cons h, ended, matching, List.flatMap_cons, if_pos match_nil,
    List.length_append, List.length_append]
  rfl

private theorem ended_longer (h : newline ∉ line) (hmem : newline ∈ text) :
    ended (line ++ text) = line.length + ended text := by
  rcases List.eq_append_cons_of_mem hmem with ⟨first, rest, rfl, hfirst⟩
  have hboth : newline ∉ line ++ first := by
    rw [List.mem_append, not_or]
    exact ⟨h, hfirst⟩
  rw [← List.append_assoc, ended_cons hboth, ended_cons hfirst, List.length_append]
  omega

private theorem ended_add_unended (text : List UInt8) :
    ended text + (unended text).length = text.length := by
  induction text using lines_induction with
  | free text h => rw [ended_free h, unended_free h, Nat.zero_add]
  | cons line rest h ih =>
    rw [ended_cons h, unended_cons h, List.length_append, List.length_cons]
    omega

private theorem ended_pos (h : newline ∈ text) : 0 < ended text := by
  rcases List.eq_append_cons_of_mem h with ⟨line, rest, rfl, hline⟩
  rw [ended_cons hline]
  omega

private theorem unended_suffix : unended text <:+ text := by
  induction text using lines_induction with
  | free text h =>
    rw [unended_free h]
  | cons line rest h ih =>
    rw [unended_cons h]
    have hrest : rest <:+ newline :: rest := List.suffix_cons newline rest
    exact (ih.trans hrest).trans (List.suffix_append line _)

private theorem pass_whole (hz : 0 ∉ kept ++ c) (hc : newline ∈ kept ++ c) :
    pass pattern kept c = (matching pattern (terminated (kept ++ c)), unended (kept ++ c)) := by
  have hadd := ended_add_unended (kept ++ c)
  have hpos := ended_pos hc
  have hne : ¬ (unended (kept ++ c)).length = (kept ++ c).length := by omega
  rw [pass, printLines_eq hz]
  simp only [if_neg hne]

private theorem pass_lost (hz : 0 ∉ kept ++ c) (hc : newline ∉ kept ++ c) :
    pass pattern kept c = ([], []) := by
  rw [pass, printLines_eq hz, unended_free hc, terminated_free hc]
  simp only [if_true]
  rfl

private theorem grep_whole (hz : 0 ∉ kept ++ c) (hc : newline ∈ kept ++ c) :
    grep pattern kept (c :: cs) =
      matching pattern (terminated (kept ++ c)) ++ grep pattern (unended (kept ++ c)) cs := by
  rw [grep, pass_whole hz hc]

private theorem grep_lost (hz : 0 ∉ kept ++ c) (hc : newline ∉ kept ++ c) :
    grep pattern kept (c :: cs) = grep pattern [] cs := by
  rw [grep, pass_lost hz hc]
  rfl

private theorem zero_head (hz : 0 ∉ kept ++ (c :: cs).flatten) : 0 ∉ kept ++ c := by
  rw [List.flatten_cons, ← List.append_assoc, List.mem_append, not_or] at hz
  exact hz.1

private theorem zero_tail (hz : 0 ∉ kept ++ (c :: cs).flatten) :
    0 ∉ unended (kept ++ c) ++ cs.flatten := by
  rw [List.flatten_cons, ← List.append_assoc, List.mem_append, not_or] at hz
  rw [List.mem_append, not_or]
  exact ⟨fun h => hz.1 (unended_suffix.subset h), hz.2⟩

private theorem zero_rest (hz : 0 ∉ kept ++ (c :: cs).flatten) : 0 ∉ [] ++ cs.flatten := by
  have htail := zero_tail hz
  rw [List.mem_append, not_or] at htail
  rw [List.nil_append]
  exact htail.2

/-- No read without a newline is followed by one with a newline. -/
def NoneCut (reads : List (List UInt8)) : Prop :=
  reads.Pairwise fun early late => newline ∈ late → newline ∈ early

private theorem newline_flatten : newline ∈ cs.flatten ↔ ∃ late ∈ cs, newline ∈ late := List.mem_flatten

private theorem grep_prints (h : NoneCut cs) (hz : 0 ∉ kept ++ cs.flatten) (hk : newline ∉ kept) :
    grep pattern kept cs = matching pattern (terminated (kept ++ cs.flatten)) := by
  induction cs generalizing kept with
  | nil =>
    rw [List.flatten_nil, List.append_nil, terminated_free hk]
    rfl
  | cons c cs ih =>
    have hrest : NoneCut cs := (List.pairwise_cons.mp h).2
    by_cases hc : newline ∈ kept ++ c
    · rw [grep_whole (zero_head hz) hc, ih hrest (zero_tail hz) newline_unended, ← matching_append,
        ← terminated_append, List.append_assoc, List.flatten_cons]
    · have hlate : newline ∉ cs.flatten := by
        rw [newline_flatten]
        rintro ⟨late, hmem, hlate⟩
        have hearly := (List.pairwise_cons.mp h).1 late hmem hlate
        exact hc (List.mem_append_right kept hearly)
      have hall : newline ∉ kept ++ (c :: cs).flatten := by
        rw [List.flatten_cons, ← List.append_assoc, List.mem_append, not_or]
        exact ⟨hc, hlate⟩
      rw [grep_lost (zero_head hz) hc, ih hrest (zero_rest hz) List.not_mem_nil, List.nil_append,
        terminated_free hlate, terminated_free hall]

private theorem grep_length_le (hz : 0 ∉ kept ++ cs.flatten) (hk : newline ∉ kept) :
    (grep [] kept cs).length ≤ ended (kept ++ cs.flatten) := by
  induction cs generalizing kept with
  | nil => exact Nat.zero_le _
  | cons c cs ih =>
    rw [List.flatten_cons, ← List.append_assoc]
    by_cases hc : newline ∈ kept ++ c
    · rw [grep_whole (zero_head hz) hc, List.length_append, ended_append]
      exact Nat.add_le_add_left (ih (zero_tail hz) newline_unended) _
    · rw [grep_lost (zero_head hz) hc]
      have hle := ih (zero_rest hz) List.not_mem_nil
      rw [List.nil_append] at hle
      by_cases hlate : newline ∈ cs.flatten
      · rw [ended_longer hc hlate]
        omega
      · rw [ended_free hlate] at hle
        omega

private theorem noneCut_of_length (hne : [] ∉ cs) (hz : 0 ∉ kept ++ cs.flatten) (hk : newline ∉ kept)
    (h : (grep [] kept cs).length = ended (kept ++ cs.flatten)) : NoneCut cs := by
  induction cs generalizing kept with
  | nil => exact List.Pairwise.nil
  | cons c cs ih =>
    rw [List.mem_cons, not_or] at hne
    rw [List.flatten_cons, ← List.append_assoc] at h
    by_cases hc : newline ∈ kept ++ c
    · have hmem : newline ∈ c := (List.mem_append.mp hc).resolve_left hk
      rw [grep_whole (zero_head hz) hc, List.length_append, ended_append] at h
      have hrest := ih hne.2 (zero_tail hz) newline_unended (Nat.add_left_cancel h)
      exact List.pairwise_cons.mpr ⟨fun _ _ _ => hmem, hrest⟩
    · have hle := grep_length_le (zero_rest hz) List.not_mem_nil
      have hpos : 0 < (kept ++ c).length := by
        rw [List.length_append]
        exact Nat.add_pos_right _ (List.length_pos_of_ne_nil (Ne.symm hne.1))
      have hlate : newline ∉ cs.flatten := by
        intro hlate
        rw [grep_lost (zero_head hz) hc, ended_longer hc hlate] at h
        rw [List.nil_append] at hle
        omega
      have hfree : ∀ late ∈ cs, newline ∉ late := by
        intro late hmem hin
        exact hlate (newline_flatten.mpr ⟨late, hmem, hin⟩)
      apply List.pairwise_cons.mpr
      constructor
      · intro late hmem hin
        exact absurd hin (hfree late hmem)
      · apply List.pairwise_of_forall_mem_list
        intro early _ late hmem hin
        exact absurd hin (hfree late hmem)

/-- `grep` prints the matching lines of all it reads, whatever the pattern, exactly when no read without a
newline is followed by one with a newline. -/
theorem grep_complete_iff (reads : List (List UInt8)) (hne : [] ∉ reads) (hz : 0 ∉ reads.flatten) :
    (∀ pattern, grep pattern [] reads = matching pattern (terminated reads.flatten)) ↔
      NoneCut reads := by
  constructor
  · intro h
    apply noneCut_of_length hne hz List.not_mem_nil
    rw [h []]
    rfl
  · intro h pattern
    exact grep_prints h hz List.not_mem_nil

/-- A pipe that gives a line in two parts. -/
theorem grep_complete_iff_cut :
    ¬ ∀ pattern, grep pattern [] [[97], [98, 10]] = matching pattern (terminated [97, 98, 10]) := by
  intro h
  have hcut := (grep_complete_iff [[97], [98, 10]] (by decide) (by decide)).mp h
  unfold NoneCut at hcut
  exact absurd hcut (by decide)

/-- What the buffer holds of a line when its newline comes: it drops 1023 bytes at a time. -/
def seen (line : List UInt8) : List UInt8 := line.drop (1023 * (line.length / 1023))

private theorem seen_short (h : line.length < 1023) : seen line = line := by
  rw [seen, Nat.div_eq_of_lt h]
  rfl

private theorem seen_block (h : text.length = 1023) : seen (text ++ line) = seen line := by
  have hdiv : (1023 + line.length) / 1023 = 1 + line.length / 1023 := by omega
  rw [seen, List.length_append, h, hdiv, Nat.mul_add, Nat.mul_one, ← h, ← List.drop_drop,
    List.drop_left, h]
  rfl

private theorem terminated_length (hmem : line ∈ terminated text) : line.length < text.length := by
  induction text using lines_induction with
  | free text h =>
    rw [terminated_free h] at hmem
    cases hmem
  | cons first rest h ih =>
    rw [terminated_cons h, List.mem_cons] at hmem
    rw [List.length_append, List.length_cons]
    rcases hmem with rfl | hmem
    · omega
    · have hlt := ih hmem
      omega

private theorem seen_buffer (h : text.length ≤ 1023) : (terminated text).map seen = terminated text := by
  calc
    (terminated text).map seen = (terminated text).map id :=
      List.map_congr_left fun line hmem =>
        seen_short (Nat.lt_of_lt_of_le (terminated_length hmem) h)
    _ = terminated text := List.map_id _

private theorem seen_lost (h : text.length = 1023) (hfree : newline ∉ text) :
    (terminated (text ++ rest)).map seen = (terminated rest).map seen := by
  by_cases hmem : newline ∈ rest
  · rcases List.eq_append_cons_of_mem hmem with ⟨line, more, rfl, hline⟩
    have hboth : newline ∉ text ++ line := by
      rw [List.mem_append, not_or]
      exact ⟨hfree, hline⟩
    rw [← List.append_assoc, terminated_cons hboth, terminated_cons hline, List.map_cons,
      List.map_cons, seen_block h]
  · have hboth : newline ∉ text ++ rest := by
      rw [List.mem_append, not_or]
      exact ⟨hfree, hmem⟩
    rw [terminated_free hboth, terminated_free hmem]

private theorem fileReads_nil : fileReads pattern kept [] = [] := by
  rw [fileReads]
  exact dif_pos (Nat.min_zero _)

private theorem fileReads_cons {input : List UInt8} (hroom : kept.length < 1023) (hne : input ≠ []) :
    fileReads pattern kept input = input.take (room kept) ::
      fileReads pattern (pass pattern kept (input.take (room kept))).2 (input.drop (room kept)) := by
  have hpos := List.length_pos_of_ne_nil hne
  have hread : ¬ min (room kept) input.length = 0 := by
    rw [room]
    omega
  rw [fileReads, dif_neg hread]

private theorem grep_file_from {input : List UInt8} (hz : 0 ∉ kept ++ input) (hk : newline ∉ kept)
    (hroom : kept.length < 1023) : grep pattern kept (fileReads pattern kept input) =
      matching pattern ((terminated (kept ++ input)).map seen) := by
  induction hn : input.length using Nat.strong_induction_on generalizing kept input with
  | h n ih =>
    by_cases hne : input = []
    · rw [hne, fileReads_nil, List.append_nil, terminated_free hk]
      rfl
    have hlength := List.length_pos_of_ne_nil hne
    have hcut : kept ++ input = kept ++ input.take (room kept) ++ input.drop (room kept) := by
      rw [List.append_assoc, List.take_append_drop]
    have hbuf : (kept ++ input.take (room kept)).length ≤ 1023 := by
      rw [List.length_append, List.length_take, room]
      omega
    have hless : (input.drop (room kept)).length < n := by
      rw [List.length_drop, ← hn, room]
      omega
    rw [hcut, List.mem_append, not_or] at hz
    rw [fileReads_cons hroom hne, hcut]
    by_cases hc : newline ∈ kept ++ input.take (room kept)
    · have hadd := ended_add_unended (kept ++ input.take (room kept))
      have hpos := ended_pos hc
      have hzero : 0 ∉ unended (kept ++ input.take (room kept)) ++ input.drop (room kept) := by
        rw [List.mem_append, not_or]
        exact ⟨fun h => hz.1 (unended_suffix.subset h), hz.2⟩
      rw [pass_whole hz.1 hc, grep_whole hz.1 hc, ih _ hless hzero newline_unended (by omega) rfl,
        terminated_append (kept ++ input.take (room kept)), List.map_append, matching_append,
        seen_buffer hbuf]
    · rw [pass_lost hz.1 hc, grep_lost hz.1 hc, ih _ hless hz.2 List.not_mem_nil (by decide) rfl,
        List.nil_append]
      by_cases hfull : (kept ++ input.take (room kept)).length = 1023
      · rw [seen_lost hfull hc]
      · have hend : input.drop (room kept) = [] := by
          rw [List.length_append, List.length_take] at hfull
          rw [List.drop_eq_nil_iff]
          unfold room at hfull ⊢
          omega
        rw [hend, List.append_nil, terminated_free hc, terminated_free List.not_mem_nil]

/-- A line of a regular file that a newline ends is matched and printed without its first
`1023 * (length / 1023)` bytes, a line of fewer than 1023 bytes whole. -/
theorem grep_file (pattern input : List UInt8) (hz : 0 ∉ input) :
    grep pattern [] (fileReads pattern [] input) =
      matching pattern ((terminated input).map seen) :=
  grep_file_from hz List.not_mem_nil (by decide)

/-- `b$` and a file whose last line has no newline. -/
theorem grep_file_three : grep [98, 36] [] (fileReads [98, 36] [] [97, 98, 10, 98, 97, 10, 98]) =
    [97, 98, 10] := by
  rw [grep_file [98, 36] [97, 98, 10, 98, 97, 10, 98] (by decide)]
  decide

end Lines

end OsSessional.Userland
