import Osyikkk.FileNameProofs
import Osyikkk.FileMapProofs
import Osyikkk.CommandOutcomes

/-!
# Files as arguments

A file is typed as its name, or as its name, a dot and its extension. `parse_file_cmd` takes
such a token apart again (`parseFileCmd_fileName`), but in the arrays of its caller a name of
less than seven characters does not outlive its extension (`parseTarget_fileName`). A command
with the token as its only argument walks nowhere.
-/

namespace OsyShell

open OsyDisk OsyFat32 OsyVolume PartialRun

/-- A name and an extension that can be typed. -/
structure IsFileName (name ext : List UInt8) : Prop where
  namePart : IsPart 8 name
  extPart : IsPart 3 ext
  nonempty : name ≠ []
  chars : ∀ b ∈ name ++ ext, b ≠ space ∧ b ≠ slash

instance (name ext : List UInt8) : Decidable (IsFileName name ext) :=
  decidable_of_iff (IsPart 8 name ∧ IsPart 3 ext ∧ name ≠ [] ∧
    ((name ++ ext).all fun b => decide (b ≠ space ∧ b ≠ slash)) = true) <| by
      rw [List.all_eq_true]
      simp only [decide_eq_true_eq]
      exact ⟨fun h => ⟨h.1, h.2.1, h.2.2.1, h.2.2.2⟩,
        fun h => ⟨h.namePart, h.extPart, h.nonempty, h.chars⟩⟩

/-- The field of an entry that holds an extension. -/
def rowExt (row : List UInt8) : EntryExt := fun j => charAt row j

/-- Slot `i` of the directory at `d` holds a file of the name and the extension, whose clusters
    are `l`, as many as its size says. No other slot has both. -/
structure FileAt (fs : FileSystem) (d : UInt32) (name ext : List UInt8)
    (i : Fin directoryEntryCount) (l : List UInt32) : Prop where
  slot : i ≠ 0
  used : (fs.table d i).used
  file : (fs.table d i).attr = attrArchive
  nameField : (fs.table d i).name = rowName name
  extField : (fs.table d i).ext = rowExt ext
  only : ∀ j, j ≠ 0 → (fs.table d j).name = rowName name → (fs.table d j).ext = rowExt ext → j = i
  chain : FatChain fs.fat (fs.table d i).cluster l
  nonempty : l ≠ []
  sized : l.length = (fs.table d i).filesize.toNat / clusterSize

variable {name ext row : List UInt8} {locals : Locals} {behind : UInt8} {s : Shell}

/-! ## The token -/

theorem charAt_append_zeros (row : List UInt8) (n : ℕ) :
    charAt (row ++ List.replicate n 0) = charAt row := by
  funext j
  rcases Nat.lt_or_ge j row.length with hlt | hge
  · exact charAt_append_left hlt
  · rw [charAt_of_le hge, charAt, List.getD_append_right _ _ _ _ hge, List.getD_eq_getElem?_getD,
      List.getElem?_replicate]
    split <;> rfl

theorem tokenBytes_charAt (h : row.length ≤ 12) :
    tokenBytes (charAt row) 0 12 = row ++ List.replicate (12 - row.length) 0 := by
  rw [tokenBytes, ← List.range_eq_range', map_charAt_eq, List.take_of_length_le h]

theorem fileName_nil (name : List UInt8) : fileName name [] = name := if_pos rfl

theorem fileName_cons (hext : ext ≠ []) : fileName name ext = name ++ dot :: ext := if_neg hext

theorem IsFileName.length (h : IsFileName name ext) : (fileName name ext).length ≤ 12 := by
  have hname := h.namePart.length
  have hext := h.extPart.length
  rw [fileName]
  split
  · omega
  · rw [List.length_append, List.length_cons]
    omega

theorem IsPart.takeWhile_append {limit : ℕ} (h : IsPart limit name) (rest : List UInt8) :
    (name ++ rest).takeWhile (· ≠ dot) = name ++ rest.takeWhile (· ≠ dot) ∧
      (name ++ rest).dropWhile (· ≠ dot) = rest.dropWhile (· ≠ dot) := by
  have hdots : ∀ b ∈ name, decide (b ≠ dot) = true := by
    intro b hb
    refine decide_eq_true ?_
    rintro rfl
    exact h.noDot hb
  exact ⟨List.takeWhile_append_of_pos hdots, List.dropWhile_append_of_pos hdots⟩

/-- The bytes that the parser sees of a token with an extension. -/
theorem tokenParts_cons (h : IsFileName name ext) (hext : ext ≠ []) :
    tokenName (charAt (fileName name ext)) = name ∧
      tokenExt (charAt (fileName name ext))
        = ext ++ List.replicate (11 - name.length - ext.length) 0 := by
  have hzeros : ∀ n, ∀ b ∈ List.replicate n (0 : UInt8), decide (b ≠ dot) = true := by
    intro n b hb
    rw [List.eq_of_mem_replicate hb]
    decide
  have hdots : ∀ b ∈ ext, decide (b ≠ dot) = true := by
    intro b hb
    refine decide_eq_true ?_
    rintro rfl
    exact h.extPart.noDot hb
  have hbytes := tokenBytes_charAt h.length
  have hcount : 12 - (name ++ dot :: ext).length = 11 - name.length - ext.length := by
    rw [List.length_append, List.length_cons]
    omega
  rw [fileName_cons hext, hcount, List.append_assoc, List.cons_append] at hbytes
  obtain ⟨htake, hdrop⟩ := h.namePart.takeWhile_append
    (dot :: (ext ++ List.replicate (11 - name.length - ext.length) 0))
  rw [fileName_cons hext]
  constructor
  · rw [tokenName, nameBytes, hbytes, htake, List.takeWhile_cons_of_neg (by decide),
      List.append_nil]
  · rw [tokenExt, extBytes, hbytes, hdrop, List.dropWhile_cons_of_neg (by decide),
      List.filter_cons_of_neg (by decide), List.filter_append, List.filter_eq_self.mpr hdots,
      List.filter_eq_self.mpr (hzeros _)]

/-- **The parser takes the name and the extension apart again.** -/
theorem parseFileCmd_fileName (h : IsFileName name ext) :
    parseFileCmd (charAt (fileName name ext)) =
      { targetName := charAt name
        targetExt := charAt ext
        nameTooLong := false
        extTooLong := false } := by
  have height : charAt name 8 = 0 := charAt_of_le h.namePart.length
  have hfour : charAt ext 4 = 0 := charAt_of_le (h.extPart.length.trans (by decide))
  by_cases hext : ext = []
  · subst hext
    rw [fileName_nil, parseFileCmd_name h.namePart.noDot h.namePart.length, charAt_nil]
    rfl
  · obtain ⟨hn, he⟩ := tokenParts_cons h hext
    have hstored : charAt (tokenExt (charAt (fileName name ext))) 4 = 0 := by
      rw [he, charAt_append_zeros, hfour]
    rw [parseFileCmd_eq, hn, height, if_neg (by decide), stored_eq_self hstored, hstored, he,
      charAt_append_zeros]
    rfl

/-- What is left of the name in the caller's array. With an extension, zeros from behind the
    token are stored over its first characters, as many as it has less than seven. -/
def keptName (name ext : List UInt8) : List UInt8 :=
  if ext = [] then name
  else List.replicate (7 - name.length) 0 ++ name.drop (7 - name.length)

/-- The name is left as it is. -/
theorem keptName_eq (h : ext = [] ∨ 7 ≤ name.length) : keptName name ext = name := by
  rw [keptName]
  split_ifs with hext
  · rfl
  · rw [Nat.sub_eq_zero_of_le (h.resolve_left hext)]
    rfl

/-- Or its first character is lost. -/
theorem keptName_lost (hext : ext ≠ []) (h7 : name.length < 7) :
    ∃ rest, keptName name ext = 0 :: rest := by
  obtain ⟨n, hn⟩ := Nat.exists_eq_succ_of_ne_zero (Nat.sub_ne_zero_of_lt h7)
  rw [keptName, if_neg hext, hn, List.replicate_succ]
  exact ⟨_, rfl⟩

theorem charAt_keptName (hext : ext ≠ []) (j : ℕ) :
    charAt (keptName name ext) j = if j < 7 - name.length then 0 else charAt name j := by
  rw [keptName, if_neg hext]
  by_cases hj : j < 7 - name.length
  · rw [if_pos hj, charAt_append_left (by rwa [List.length_replicate]),
      charAt_of_lt (by rwa [List.length_replicate]), List.getElem_replicate]
  · have hdrop : 7 - name.length + (j - (7 - name.length)) = j := by omega
    rw [if_neg hj, charAt, List.getD_append_right _ _ _ _
        (by rw [List.length_replicate]; exact Nat.not_lt.mp hj), List.length_replicate,
      List.getD_eq_getElem?_getD, List.getElem?_drop, hdrop, ← List.getD_eq_getElem?_getD]
    rfl

/-- **What the caller of the parser finds.** -/
theorem parseTarget_fileName (h : IsFileName name ext) :
    parseTarget (charAt (fileName name ext)) =
      { targetName := charAt (keptName name ext)
        targetExt := charAt ext
        nameTooLong := false
        extTooLong := false } := by
  by_cases hext : ext = []
  · subst hext
    rw [fileName_nil, keptName_eq (Or.inl rfl), charAt_nil,
      parseTarget_name h.namePart.noDot h.namePart.length]
    rfl
  obtain ⟨hn, he⟩ := tokenParts_cons h hext
  have hname := h.namePart.length
  have hlen := h.extPart.length
  have height : charAt name 8 = 0 := charAt_of_le hname
  have hfour : charAt (tokenExt (charAt (fileName name ext))) 4 = 0 := by
    rw [he, charAt_append_zeros]
    exact charAt_of_le (hlen.trans (by decide))
  have hstores : (parseStores (charAt (fileName name ext)) 12 0 false 0 0).2.length
      = ext.length + (11 - name.length - ext.length) := by
    rw [parseStores_eq, hn, if_neg (not_not.mpr height), stored_eq_self hfour, he,
      List.length_range, List.length_append, List.length_replicate]
  rw [parseTarget_eq, parseFileCmd_fileName h, hstores]
  refine ParsedFile.mk.injEq .. |>.mpr ⟨funext fun j => ?_, funext fun j => ?_, rfl, rfl⟩
  · rw [charAt_keptName hext]
    dsimp only
    rw [charAt_of_le (show ext.length ≤ 4 + j by omega)]
    exact if_congr (by omega) rfl rfl
  · dsimp only
    split_ifs with hj
    · rfl
    · exact (charAt_of_le (by omega)).symm

/-- The strings in the caller's arrays. -/
theorem parseTarget_strings (h : IsFileName name ext) :
    cString (parseTarget (charAt (fileName name ext))).name
        = (if ext = [] ∨ 7 ≤ name.length then name else []) ∧
      cString (parseTarget (charAt (fileName name ext))).extString = ext := by
  have hnul : 0 ∈ (parseTarget (charAt (fileName name ext))).ext := by
    rw [parseTarget_fileName h]
    exact zero_mem_array.mpr (Or.inl (Nat.lt_succ_of_le h.extPart.length))
  rw [cString_extString hnul, parseTarget_fileName h]
  refine ⟨?_, cString_map_charAt h.extPart.noNul (Nat.lt_succ_of_le h.extPart.length)⟩
  show cString ((List.range 9).map (charAt (keptName name ext))) = _
  split_ifs with hkept
  · rw [keptName_eq hkept]
    exact cString_map_charAt h.namePart.noNul (Nat.lt_succ_of_le h.namePart.length)
  · rw [not_or, Nat.not_le] at hkept
    obtain ⟨rest, hrest⟩ := keptName_lost hkept.1 hkept.2
    rw [cString_array, hrest, cString_cons, if_pos rfl, List.take_nil]

/-- The first eight bytes of the token are the name's field for a name alone, or for one of
    eight characters. -/
theorem rowName_fileName (h : IsFileName name ext) :
    rowName (fileName name ext) = rowName name ↔ ext = [] ∨ name.length = 8 := by
  by_cases hext : ext = []
  · rw [hext, fileName_nil]
    exact iff_of_true rfl (Or.inl rfl)
  rw [fileName_cons hext]
  constructor
  · intro hrow
    refine Or.inr (le_antisymm h.namePart.length ?_)
    by_contra hlt
    have hat := congrFun hrow ⟨name.length, Nat.lt_of_not_le hlt⟩
    have hdot : charAt (name ++ dot :: ext) name.length = dot := charAt_append_length _ _
    have hend : charAt name name.length = 0 := charAt_of_le (Nat.le_refl _)
    exact absurd (hdot.symm.trans (hat.trans hend)) (by decide)
  · intro height
    have hfull := height.resolve_left hext
    funext j
    exact charAt_append_left (hfull.symm ▸ j.isLt)

/-! ## The entry -/

/-- A name that is typed is no empty field. -/
theorem IsFileName.rowName_ne (h : IsFileName name ext) : rowName name ≠ fun _ => 0 := by
  intro hzero
  obtain ⟨b, rest, rfl⟩ := List.exists_cons_of_ne_nil h.nonempty
  have hb : b = 0 := congrFun hzero 0
  exact h.namePart.noNul (hb ▸ List.mem_cons_self)

/-- The strings in the two fields. -/
theorem cString_rowName (h : IsPart 8 name) : cString (List.ofFn (rowName name)) = name := by
  have hfield : List.ofFn (rowName name) = (List.range 8).map (charAt name) :=
    ofFn_eq_map_range 8 (charAt name)
  rw [hfield, cString_array, cString_eq_self h.noNul, List.take_of_length_le h.length]

/-- The file is what a request with its two fields finds. -/
theorem FileAt.firstMatch {fs : FileSystem} {d : UInt32} {i : Fin directoryEntryCount}
    {l : List UInt32} (h : FileAt fs d name ext i l) {request : FAT32DriverRequest}
    (hname : request.name = (fs.table d i).name) (hext : request.ext = (fs.table d i).ext) :
    firstMatch request (fs.table d) = some i := by
  refine firstMatch_unique ⟨h.slot, hname, hext⟩ fun j hj => h.only j hj.1 ?_ ?_
  · exact hj.2.1.symm.trans (hname.trans h.nameField)
  · exact hj.2.2.symm.trans (hext.trans h.extField)

/-- A file that `write` has stored. -/
theorem fileAt_stored {fs : FileSystem} {request : FAT32DriverRequest} {c : UInt32}
    {rest : List UInt32} (hwf : WellFormed fs) (hreq : FileRequest request fs)
    (htake : (freeCells fs.fat).take (clusterCount request) = c :: rest)
    (hslot : writeSlot request fs ≠ 0) (hname : request.name = rowName name)
    (hext : request.ext = rowExt ext) :
    FileAt (fileWritten request fs c rest) request.parentClusterNumber name ext
      (writeSlot request fs) (c :: rest) := by
  have hins := stored_inserted hwf hreq htake
  have hentry : (fileWritten request fs c rest).table request.parentClusterNumber
      (writeSlot request fs) = fileEntry request fs c :=
    (congrFun hins.entry _).trans (Function.update_self _ _ _)
  constructor
  case slot => exact hslot
  case used =>
    rw [hentry]
    rfl
  case file => rw [hentry, fileEntry_attr c hreq.sized]
  case nameField =>
    rw [hentry]
    exact hname
  case extField =>
    rw [hentry]
    exact hext
  case only =>
    intro j hj hn he
    have hmatch : Matches request ((fileWritten request fs c rest).table
        request.parentClusterNumber) j := ⟨hj, hname.trans hn.symm, hext.trans he.symm⟩
    rcases matches_fileWritten hwf hreq htake hreq.live hmatch with ⟨-, hjs⟩ | hold
    · exact hjs
    · exact absurd hold (hreq.fresh j)
  case chain =>
    rw [hentry]
    exact hins.chain
  case nonempty => exact List.cons_ne_nil _ _
  case sized =>
    rw [hentry]
    show (c :: rest).length = request.bufferSize.toNat / clusterSize
    rw [← stored_length hreq htake]
    exact (Nat.mul_div_cancel_left _ (by decide)).symm

/-! ## The line -/

theorem IsFileName.isPath (h : IsFileName name ext) : IsPath [fileName name ext] := by
  have hword : IsWord (fileName name ext) := by
    refine ⟨?_, Nat.lt_of_le_of_lt h.length (by decide)⟩
    have hchars : ∀ b ∈ name ++ ext, b ≠ 0 ∧ b ≠ space ∧ b ≠ slash := by
      intro b hb
      refine ⟨?_, h.chars b hb⟩
      rintro rfl
      exact (List.mem_append.mp hb).elim h.namePart.noNul h.extPart.noNul
    intro b hb
    rw [fileName] at hb
    split at hb
    · exact hchars b (List.mem_append_left _ hb)
    · rcases List.mem_append.mp hb with hb | hb
      · exact hchars b (List.mem_append_left _ hb)
      · rcases List.mem_cons.mp hb with rfl | hb
        · decide
        · exact hchars b (List.mem_append_right _ hb)
  refine isPath_word hword ?_
  rw [fileName]
  split
  · exact h.nonempty
  · exact List.append_ne_nil_of_left_ne_nil h.nonempty _

/-- A line of a command and one word. -/
theorem commandOf_word {token : List UInt8} (behind : UInt8) (b : Branch) (h : IsPath [token]) :
    commandOf behind (bufferOf (pathLine b.word [token])) = some (b, pathTable b.word [token]) := by
  have hword := b.word_isWord
  have htoken := (h.words token List.mem_cons_self).length
  have hlen : (pathLine b.word [token]).length < 256 := by
    have hshort := hword.length
    rw [pathLine, pathText, List.length_append, List.length_cons]
    omega
  exact commandOf_line (plainLine_pathLine hword b.word_ne_nil h hlen)
    (tokenize_pathLine hword b.word_ne_nil h (show 1 ≤ 38 by decide)) rfl

/-- Nothing is walked over in front of the word. -/
theorem pathLoopIf_word {token : List UInt8} (word : List UInt8) (s : Shell) (h : IsPath [token]) :
    pathLoopIf (pathTable word [token]) (fun i => rowUsed (pathTable word [token]) (i + 1)) 2 2 s
      = some (2, s) := by
  refine pathLoopIf_dropLast ?_ (show 1 ≤ 37 by decide) (List.cons_ne_nil _ _)
  intro c hc
  have hword := h.words c hc
  rw [List.mem_singleton.mp hc] at hword ⊢
  exact ⟨hword, fun hnil => h.first (congrArg some hnil)⟩

theorem row_word (word token : List UInt8) : (pathTable word [token]).row 2 = some token := rfl

end OsyShell
