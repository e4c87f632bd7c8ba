import Kernel391.Grep

/-!
# `do_one_file` on any file

Whatever bytes a file and the uninitialised array hold, the searches, the terminators and the moves
of `do_one_file` stay inside the array, and it comes to the end of the file.  What it prints is
another matter: a terminator in the file cuts lines short and makes the move lose bytes.
-/

namespace Kernel391

open Machine

theorem exists_text {data : List UInt8} {i e : Nat} (he : data[e]? = some 0) (hi : i ≤ e) :
    ∃ text rest, data.drop i = text ++ 0 :: rest ∧ (∀ c ∈ text, c ≠ 0) ∧ text.length ≤ e - i := by
  induction hn : e - i generalizing i with
  | zero =>
    have heq : i = e := by omega
    subst heq
    obtain ⟨hlt, hget⟩ := List.getElem?_eq_some_iff.mp he
    refine ⟨[], data.drop (i + 1), ?_, by simp, by simp⟩
    rw [List.drop_eq_getElem_cons hlt, hget]
    rfl
  | succ n ih =>
    obtain ⟨hlt, -⟩ := List.getElem?_eq_some_iff.mp he
    have hcons := List.drop_eq_getElem_cons (show i < data.length by omega)
    by_cases hzero : data[i] = 0
    · refine ⟨[], data.drop (i + 1), ?_, by simp, by simp⟩
      rw [hcons, hzero]
      rfl
    · obtain ⟨text, rest, hdrop, htext, hlen⟩ := @ih (i + 1) (by omega) (by omega)
      refine ⟨data[i] :: text, rest, ?_, ?_, ?_⟩
      · rw [hcons, hdrop]
        rfl
      · intro c hc
        rcases List.mem_cons.mp hc with rfl | hc
        · exact hzero
        · exact htext c hc
      · rw [List.length_cons]
        omega

/-- The search for a newline stays in the array and does not pass `last`. -/
theorem findLineEnd_exists {data : List UInt8} {k start : Nat} (h : start + k < data.length) :
    ∃ e, findLineEnd data k start = some e ∧ start ≤ e ∧ e ≤ start + k := by
  induction k generalizing start with
  | zero => exact ⟨start, rfl, Nat.le_refl _, Nat.le_refl _⟩
  | succ k ih =>
    have hget := List.getElem?_eq_getElem (show start < data.length by omega)
    by_cases hnewline : data[start] = 0x0A
    · refine ⟨start, ?_, Nat.le_refl _, by omega⟩
      simp [findLineEnd, hget, hnewline]
    · obtain ⟨e, he, hlo, hhi⟩ := @ih (start + 1) (by omega)
      refine ⟨e, ?_, by omega, by omega⟩
      simp [findLineEnd, hget, hnewline, he]

section Safety

variable {os : Os} {p : Int} {files : Nat → FdT} {index : Nat} {w : World}
  {s fname pat name data file : List UInt8} {lineStart lineEnd last pos fd : Nat} {cnt : Int}
  {S : Nat → (Nat → FdT) → Prop}

theorem printLine_safe (hos : os.Undisturbed p) (hw : Running os p files index w)
    (hout : Stdout os.img.lay (files 1)) (hstr : GrepStrings s fname pat name)
    (hend : data[lineEnd]? = some 0) (hstart : lineStart ≤ lineEnd) (hlen : lineEnd < 2 ^ 32) :
    Ends (printLine os fname data lineStart) w fun _ w' => Running os p files index w' := by
  obtain ⟨text, rest, hdrop, htext, hbound⟩ := exists_text hend hstart
  refine (printLine_ends hos hw hout hstr hdrop htext (by omega)).mono ?_
  rintro - w' ⟨hw', -⟩
  exact hw'

theorem searchLine_safe (hos : os.Undisturbed p) (hw : Running os p files index w)
    (hout : Stdout os.img.lay (files 1)) (hstr : GrepStrings s fname pat name)
    (hend : data[lineEnd]? = some 0) (hstart : lineStart ≤ lineEnd) (hlen : lineEnd < 2 ^ 32)
    {k check : Nat} (hcheck : check + k = lineEnd) :
    Ends (searchLine os s fname pat.length data lineStart k check) w fun _ w' =>
      Running os p files index w' := by
  obtain ⟨patRest, hs⟩ := hstr.pattern
  obtain ⟨b, patTail, hcons⟩ := List.exists_cons_of_ne_nil hstr.pattern_ne
  induction k generalizing check with
  | zero => exact Ends.pure hw
  | succ k ih =>
    obtain ⟨hlt, -⟩ := List.getElem?_eq_some_iff.mp hend
    have hget := List.getElem?_eq_getElem (show check < data.length by omega)
    have hs0 : s[0]? = some b := by
      rw [hs, hcons]
      rfl
    unfold searchLine
    refine Ends.bind (Ends.lift hs0 (Ends.bind (Ends.lift hget ?_)))
    split
    · obtain ⟨text, rest, hdrop, -, -⟩ := exists_text hend (show check ≤ lineEnd by omega)
      obtain ⟨r, hr, -⟩ := ece391Strncmp_eq hstr.pattern_ne hstr.pattern_text hdrop hs
      refine Ends.bind (Ends.lift hr ?_)
      split
      · exact printLine_safe hos hw hout hstr hend hstart hlen
      · exact ih (by omega)
    · exact ih (by omega)

theorem linesLoop_safe (hos : os.Undisturbed p) (hw : Running os p files index w)
    (hout : Stdout os.img.lay (files 1)) (hstr : GrepStrings s fname pat name)
    (hdata : data.length = BUFSIZE + 1) (hstart : lineStart ≤ last) (hlast : last ≤ BUFSIZE)
    {k : Nat} (hk : last - lineStart < k) :
    Ends (linesLoop os s fname pat.length cnt last k data lineStart) w fun r w' =>
      Running os p files index w' ∧ r.1.length = BUFSIZE + 1 ∧ r.2 < BUFSIZE := by
  have hsize : BUFSIZE = 1024 := rfl
  induction k generalizing data lineStart w with
  | zero => omega
  | succ k ih =>
    obtain ⟨e, he, hlo, hhi⟩ := @findLineEnd_exists data (last - lineStart) lineStart (by omega)
    have hlt : e < data.length := by omega
    have hzero : (data.set e 0)[e]? = some 0 := by
      rw [List.getElem?_set_self hlt]
    have hlength : (data.set e 0).length = BUFSIZE + 1 := by
      rw [List.length_set, hdata]
    unfold linesLoop
    refine Ends.bind (Ends.lift he (Ends.bind (Ends.lift (List.getElem?_eq_getElem hlt) (Ends.bind
      (Ends.lift (storeAt_one hlt 0) ?_)))))
    split
    · rename_i hmove
      obtain ⟨text, rest, hdrop, htext, hbound⟩ := exists_text hzero hlo
      have hcopy : ece391Strcpy 0 lineStart (data.set e 0) =
          some (text ++ 0 :: (data.set e 0).drop (text.length + 1)) := by
        unfold ece391Strcpy
        rw [strcpyLoop_eq htext (by omega) hdrop (Nat.zero_le _)]
        simp
      refine Ends.bind (Ends.lift hcopy (Ends.pure ⟨hw, ?_, ?_⟩))
      · rw [List.length_append, List.length_cons, List.length_drop]
        omega
      · show last - lineStart < BUFSIZE
        omega
    · refine Ends.bind_of (searchLine_safe hos hw hout hstr hzero hlo (by omega) (by omega)) ?_
      rintro - w₁ hw₁
      split
      · exact Ends.pure ⟨hw₁, hlength, show 0 < BUFSIZE by decide⟩
      · exact ih hw₁ hlength (by omega) (by omega)

theorem readsLoop_safe (hos : os.Undisturbed p) (hdel : FileDelivers os p fd file S)
    (hS : S pos files) (hw : Running os p files index w) (hout : Stdout os.img.lay (files 1))
    (hstr : GrepStrings s fname pat name) (hfd : 2 ≤ fd ∧ fd < 8) (hpos : pos ≤ file.length)
    (hdata : data.length = BUFSIZE + 1) (hlast : last < BUFSIZE) {k : Nat}
    (hk : file.length - pos < k) :
    Ends (readsLoop os s fname pat.length fd k data last) w fun r w' => r = 0 ∧
      ∃ files', Running os p files' index w' ∧ (files' fd).flags = 0 ∧
        ∀ j, j ≠ fd → files' j = files j := by
  have hsize : BUFSIZE = 1024 := rfl
  induction k generalizing pos files data last w with
  | zero => omega
  | succ k ih =>
    have hread := hdel.read (BUFSIZE - last) hS hpos hw
    have hlen : ((file.drop pos).take (BUFSIZE - last)).length =
        min (BUFSIZE - last) (file.length - pos) := by
      rw [List.length_take, List.length_drop]
    generalize (file.drop pos).take (BUFSIZE - last) = chunk at *
    unfold readsLoop
    refine Ends.bind_of hread ?_
    rintro ⟨cnt, stored⟩ w₁ ⟨hr, -, files₁, hS₁, hw₁, hother₁⟩
    obtain ⟨rfl, rfl⟩ := Prod.mk.inj hr
    have hstore : storeAt last stored data =
        some (data.take last ++ stored ++ data.drop (last + stored.length)) := if_pos (by omega)
    refine Ends.bind (Ends.lift hstore ?_)
    rw [if_neg (by omega), Int.toNat_natCast]
    have hout₁ : Stdout os.img.lay (files₁ 1) := by
      rw [hother₁ 1 (by omega)]
      exact hout
    refine Ends.bind_of (linesLoop_safe hos hw₁ hout₁ hstr ?_ (Nat.zero_le _) (by omega)
      (by omega)) ?_
    · rw [List.length_append, List.length_append, List.length_take, List.length_drop]
      omega
    rintro ⟨data₂, last₂⟩ w₂ ⟨hw₂, hdata₂, hlast₂⟩
    dsimp only at hdata₂ hlast₂ ⊢
    by_cases hend : stored.length = 0
    · obtain ⟨d, hfops⟩ := hdel.fops hS₁
      rw [if_pos (by omega)]
      refine Ends.bind_of (os.close_ends hos hw₂ hfd hfops (hdel.flags hS₁)) ?_
      rintro r w₃ ⟨rfl, hw₃, -⟩
      rw [if_neg (by omega)]
      refine Ends.pure ⟨rfl, _, hw₃, ?_, ?_⟩
      · rw [Function.update_self]
        rfl
      · intro j hj
        rw [Function.update_of_ne hj, hother₁ j hj]
    · rw [if_neg (by omega)]
      refine (ih hS₁ hw₂ hout₁ (by omega) hdata₂ hlast₂ (by omega)).mono ?_
      rintro r w₃ ⟨hr, files₃, hw₃, hclosed, hother₃⟩
      exact ⟨hr, files₃, hw₃, hclosed, fun j hj => (hother₃ j hj).trans (hother₁ j hj)⟩

/-- Every access of `do_one_file` is inside its array, and it returns with the file closed. -/
theorem do_one_file_safe {dentry : Dentry} {k : Nat} (hos : os.Undisturbed p)
    (hticks : os.ClockTicks) (hw : Running os p files index w)
    (hout : Stdout os.img.lay (files 1)) (hstr : GrepStrings s fname pat name)
    (hname : name.length ≤ 32) (hfree : FirstFree files fd)
    (hfound : (readDentryByName os.img.fs.bootBlock (some (cstring fname))).found = some dentry)
    (hread : Readable os.img.fs dentry) (hdata : data.length = BUFSIZE + 1)
    (hk : (deliveredBy os.img.fs dentry).length < k) :
    Ends (doOneFile os s fname k data) w fun r w' => r = 0 ∧
      ∃ files', Running os p files' index w' ∧ (files' fd).flags = 0 ∧
        ∀ j, j < fd → files' j = files j := by
  refine doOneFile_ends_of_reads hos hticks hw hstr hname hfree hfound hread ?_
  intro S files₁ w₁ hdel hS hw₁ _ hbefore
  obtain ⟨-, hlo, hhi, -⟩ := hfree
  have hout₁ : Stdout os.img.lay (files₁ 1) := by
    rw [hbefore 1 (by omega)]
    exact hout
  refine Ends.mono (readsLoop_safe hos hdel hS hw₁ hout₁ hstr ⟨hlo, hhi⟩ (Nat.zero_le _) hdata
    (by decide) (by omega)) ?_
  rintro r w₂ ⟨hr, files₂, hw₂, hclosed, hother⟩
  exact ⟨hr, files₂, hw₂, hclosed, fun j hj => (hother j (by omega)).trans (hbefore j hj)⟩

end Safety

-- A file with a terminator in the middle of a line.
def binaryFs : FileSys :=
  { twoLinesFs with blocks := fun _ p => [0x61, 0, 0x62, 0x0A, 0x63].getD p 0 }

-- The array is full of newlines.
theorem do_one_file_safe_binary :
    ∃ w', doOneFile (pendingOs binaryFs) (literal "b") (nameField binaryFs 2 ++ [0]) 6
      (List.replicate 1025 0x0A) (startedWorld (message "b")) = some (0, w') := by
  have hstr : GrepStrings (literal "b") (nameField binaryFs 2 ++ [0]) (message "b")
      (entryName binaryFs 2) := by
    obtain ⟨hname, hname0, hnamelen⟩ := entryName_eq binaryFs 2
    exact ⟨⟨[], rfl⟩, by decide, List.forall_mem_ne'.mpr (by decide), by decide, hname, hname0,
      by omega⟩
  have hfree : FirstFree ((startedWorld (message "b")).kernel.pcbs 0).fileArray 2 :=
    ⟨rfl, by decide, by decide, fun j _ _ => by omega⟩
  have hsafe := @do_one_file_safe (pendingOs binaryFs) 0 _ 0 (startedWorld (message "b"))
    (literal "b") (nameField binaryFs 2 ++ [0]) (message "b") (entryName binaryFs 2)
    (List.replicate 1025 0x0A) 2
    (binaryFs.bootBlock.dentries 2) 6 (pendingOs_undisturbed _ 0) (pendingOs_ticks _)
    ⟨rfl, rfl, fun _ => rfl⟩ ⟨rfl, by decide⟩ hstr
    (entryName_eq binaryFs 2).2.2 hfree rfl ⟨.inr rfl, by decide⟩ List.length_replicate
    (by decide +kernel)
  obtain ⟨r, w', hrun, hr, -⟩ := hsafe
  exact ⟨w', by rw [hrun, hr]⟩

end Kernel391
