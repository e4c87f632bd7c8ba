import Kernel391.Blink

/-!
# The blinking characters as a table

What `blink.S` is for: a table of entries, most recent first, each with its own clock, and the page
they blink on.  The linked list and the array refine the table as long as no entry is added at
location zero, which to `mp1_malloc` is the mark of a free element.
-/

namespace Kernel391

open Machine

/-! ## The table -/

namespace BlinkEntry

/-- Where an entry blinks, as an offset on the page. -/
def offset (e : BlinkEntry) : Nat := e.location.toNat * 2

/-- The character an entry should show. -/
def shown (e : BlinkEntry) : UInt8 := if e.status &&& 1 = 0 then e.offChar else e.onChar

/-- The countdown, a signed number here, runs out with this tick. -/
abbrev Due (e : BlinkEntry) : Prop := ¬BitVec.slt 0 (e.countdown - 1)

def toggled (e : BlinkEntry) : BlinkEntry :=
  { e with
    countdown := if e.status &&& 1 = 0 then e.onLength else e.offLength
    status := e.status ^^^ 1 }

def tick (e : BlinkEntry) : BlinkEntry :=
  if e.Due then e.toggled else { e with countdown := e.countdown - 1 }

/-- The page after an entry has been ticked. -/
def tickScreen (screen : Nat → UInt8) (e : BlinkEntry) : Nat → UInt8 :=
  if e.Due then Function.update screen e.offset e.toggled.shown else screen

/-- An entry that starts to blink. -/
def started (e : BlinkEntry) : BlinkEntry := { e with status := 1, countdown := e.onLength }

/-- An entry with the clock of another one. -/
def synced (source e : BlinkEntry) : BlinkEntry :=
  { e with
    onLength := source.onLength, offLength := source.offLength
    countdown := source.countdown, status := source.status }

end BlinkEntry

theorem and_one_eq_zero_iff (x : BitVec 16) : x &&& 1 = 0 ↔ x.getLsbD 0 = false := by
  rw [show x &&& 1 = x &&& 1#16 from rfl, BitVec.and_one_eq_setWidth_ofBool_getLsbD]
  cases x.getLsbD 0 <;> decide

theorem xor_one_and_one_iff (x : BitVec 16) : (x ^^^ 1) &&& 1 = 0 ↔ ¬x &&& 1 = 0 := by
  rw [and_one_eq_zero_iff, and_one_eq_zero_iff, BitVec.getLsbD_xor]
  cases x.getLsbD 0 <;> decide

theorem BlinkEntry.shown_toggled (e : BlinkEntry) :
    e.toggled.shown = if e.status &&& 1 = 0 then e.onChar else e.offChar := by
  show (if (e.status ^^^ 1) &&& 1 = 0 then e.offChar else e.onChar) = _
  simp only [xor_one_and_one_iff, ite_not]

theorem BlinkEntry.tick_location (e : BlinkEntry) : e.tick.location = e.location := by
  unfold tick
  split <;> rfl

/-- Changes the first entry at a location. -/
def modifyAt (loc : BitVec 16) (f : BlinkEntry → BlinkEntry) : List BlinkEntry → List BlinkEntry
  | [] => []
  | e :: es => if e.location = loc then f e :: es else e :: modifyAt loc f es

theorem modifyAt_append {loc : BitVec 16} {f : BlinkEntry → BlinkEntry} {e : BlinkEntry}
    {before after : List BlinkEntry} (hbefore : ∀ d ∈ before, ¬d.location = loc)
    (he : e.location = loc) : modifyAt loc f (before ++ e :: after) = before ++ f e :: after := by
  induction before with
  | nil => exact if_pos he
  | cons d before ih =>
    rw [List.forall_mem_cons] at hbefore
    rw [List.cons_append, modifyAt, if_neg hbefore.1, ih hbefore.2]
    rfl

structure BlinkTable where
  entries : List BlinkEntry
  screen : Nat → UInt8

namespace BlinkTable

def lookup (t : BlinkTable) (loc : BitVec 16) : Option BlinkEntry :=
  t.entries.find? fun e => e.location = loc

def tick (t : BlinkTable) : BlinkTable :=
  ⟨t.entries.map BlinkEntry.tick, t.entries.foldl BlinkEntry.tickScreen t.screen⟩

def add (e : BlinkEntry) (t : BlinkTable) : Int × BlinkTable :=
  if e.location.toNat ≥ BLINK_COUNT ∨ t.entries.length = BLINK_COUNT then (-1, t)
  else (0, ⟨e.started :: t.entries, Function.update t.screen e.offset e.onChar⟩)

def remove (loc : BitVec 16) (t : BlinkTable) : Int × BlinkTable :=
  match t.lookup loc with
  | none => (-1, t)
  | some _ => (0, { t with entries := t.entries.eraseP fun e => e.location = loc })

/-- What is shown after a synchronisation is the character of the dark phase. -/
def sync (src dst : BitVec 16) (t : BlinkTable) : Int × BlinkTable :=
  match t.lookup src, t.lookup dst with
  | some source, some e =>
      (0, ⟨modifyAt dst source.synced t.entries, Function.update t.screen e.offset e.offChar⟩)
  | _, _ => (-1, t)

theorem sync_absent {t : BlinkTable} {src dst : BitVec 16}
    (h : t.lookup src = none ∨ t.lookup dst = none) : t.sync src dst = (-1, t) := by
  unfold sync
  rcases h with h | h
  · rw [h]
  · rw [h]
    cases t.lookup src <;> rfl

theorem sync_eq {t : BlinkTable} {src dst : BitVec 16} {source e : BlinkEntry}
    (hsrc : t.lookup src = some source) (hdst : t.lookup dst = some e) :
    t.sync src dst = (0, ⟨modifyAt dst source.synced t.entries,
      Function.update t.screen e.offset e.offChar⟩) := by
  unfold sync
  rw [hsrc, hdst]

/-- One call: its answer, and the table after it. -/
def step (t : BlinkTable) : BlinkCall → BlinkAnswer × BlinkTable
  | .tasklet => (⟨0, none⟩, t.tick)
  | .add arg => (⟨(t.add arg.toBlinkEntry).1, none⟩, (t.add arg.toBlinkEntry).2)
  | .remove arg => (⟨(t.remove (arg.setWidth 16)).1, none⟩, (t.remove (arg.setWidth 16)).2)
  | .find arg =>
      match t.lookup arg.location with
      | none => (⟨-1, some arg.toBlinkEntry⟩, t)
      | some e => (⟨0, some e⟩, t)
  | .sync arg =>
      let r := t.sync ((arg >>> 16).setWidth 16) (arg.setWidth 16)
      (⟨r.1, none⟩, r.2)

theorem step_find (t : BlinkTable) (arg : BlinkStruct) : (t.step (.find arg)).2 = t := by
  unfold step
  dsimp only
  split <;> rfl

def steps : List BlinkCall → BlinkTable → List BlinkAnswer × BlinkTable
  | [], t => ([], t)
  | call :: calls, t =>
      let r := steps calls (t.step call).2
      ((t.step call).1 :: r.1, r.2)

end BlinkTable

/-! ## The list and the array -/

def blinkPointers : Finset Nat := Finset.Icc 1 BLINK_COUNT

theorem mem_blinkPointers {p : Nat} : p ∈ blinkPointers ↔ InArray p := Finset.mem_Icc

theorem card_blinkPointers : blinkPointers.card = BLINK_COUNT := Nat.card_Icc 1 BLINK_COUNT

namespace Fish

def nextOf (s : Fish) (p : Nat) : Nat := (s.blinkArray p).next

def entries (s : Fish) (path : List Nat) : List BlinkEntry :=
  path.map fun p => (s.blinkArray p).toBlinkEntry

/-- The elements in use are those of the list, and all of them are on the screen. -/
structure Lists (s : Fish) (path : List Nat) : Prop where
  linked : Linked blinkPointers s.nextOf 0 s.mp1ListHead path
  free : ∀ p, InArray p → ((s.blinkArray p).location = 0 ↔ p ∉ path)
  onScreen : ∀ p ∈ path, (s.blinkArray p).location.toNat < BLINK_COUNT

def Holds (s : Fish) (t : BlinkTable) : Prop :=
  ∃ path, s.Lists path ∧ t = ⟨s.entries path, s.vmem⟩

variable {s : Fish} {p : Nat} {path : List Nat}

theorem Lists.inArray (h : s.Lists path) (hp : p ∈ path) : InArray p :=
  mem_blinkPointers.mp (h.linked.inside p hp)

theorem entries_congr {s' : Fish} (h : ∀ p ∈ path, s'.blinkArray p = s.blinkArray p) :
    s'.entries path = s.entries path := by
  apply List.map_congr_left
  intro p hp
  rw [h p hp]

/-! ### Rules for the accesses -/

@[simp]
theorem setBlink_self (b : BlinkStruct) : (s.setBlink p b).blinkArray p = b :=
  Function.update_self ..

theorem setBlink_setBlink (b b' : BlinkStruct) :
    (s.setBlink p b).setBlink p b' = s.setBlink p b' := by
  unfold setBlink
  rw [Function.update_idem]

theorem setBlink_of_ne {q : Nat} (h : q ≠ p) (b : BlinkStruct) :
    (s.setBlink p b).blinkArray q = s.blinkArray q := Function.update_of_ne h _ _

theorem load_ends {Q : BlinkStruct → Fish → Prop} (hp : InArray p) (h : Q (s.blinkArray p) s) :
    Ends (load p) s Q :=
  ⟨_, _, if_pos hp, h⟩

theorem store_ends {b : BlinkStruct} {Q : Unit → Fish → Prop} (hp : InArray p)
    (h : Q () (s.setBlink p b)) : Ends (store p b) s Q :=
  ⟨_, _, if_pos hp, h⟩

theorem mp1Poke_ends {c : UInt8} {i : Nat} {Q : Unit → Fish → Prop} (hi : i < 4096)
    (h : Q () { s with vmem := Function.update s.vmem i c }) : Ends (mp1Poke c i) s Q :=
  ⟨_, _, if_pos hi, h⟩

theorem loadHead_ends {Q : Nat → Fish → Prop} (h : Q s.mp1ListHead s) :
    Ends (loadLink .mp1ListHead) s Q :=
  ⟨_, _, rfl, h⟩

theorem loadNext_ends {Q : Nat → Fish → Prop} (hp : InArray p) (h : Q (s.nextOf p) s) :
    Ends (loadLink (.next p)) s Q :=
  Ends.bind (load_ends hp (Ends.pure h))

theorem storeHead_ends {value : Nat} {Q : Unit → Fish → Prop}
    (h : Q () { s with mp1ListHead := value }) : Ends (storeLink value .mp1ListHead) s Q :=
  ⟨_, _, rfl, h⟩

theorem storeNext_ends {value : Nat} {Q : Unit → Fish → Prop} (hp : InArray p)
    (h : Q () (s.setBlink p { s.blinkArray p with next := value })) :
    Ends (storeLink value (.next p)) s Q :=
  Ends.bind (load_ends hp (store_ends hp h))

/-! ### The tasklet -/

/-- A structure after a tick. -/
def tickedOne (s : Fish) (p : Nat) : Fish :=
  { s.setBlink p ⟨(s.blinkArray p).toBlinkEntry.tick, s.nextOf p⟩ with
    vmem := (s.blinkArray p).toBlinkEntry.tickScreen s.vmem }

/-- All structures of a path after a tick. -/
def ticked (s : Fish) (path : List Nat) : Fish := path.foldl tickedOne s

theorem blink_ends {b : BlinkStruct} {Q : Unit → Fish → Prop} (hp : InArray p)
    (hscreen : b.location.toNat < BLINK_COUNT)
    (h : Q () ({ s with
        vmem := Function.update s.vmem b.toBlinkEntry.offset b.toBlinkEntry.toggled.shown
      }.setBlink p ⟨b.toBlinkEntry.toggled, b.next⟩)) :
    Ends (blink p b) s Q := by
  have hcount : BLINK_COUNT = 2000 := rfl
  have hoffset : b.location.toNat * 2 < 4096 := by omega
  unfold blink
  rw [BlinkEntry.shown_toggled] at h
  by_cases hoff : b.status &&& 1 = 0
  · simp only [BlinkEntry.toggled, if_pos hoff] at h
    rw [if_pos hoff]
    exact Ends.bind (mp1Poke_ends hoffset (store_ends hp h))
  · simp only [BlinkEntry.toggled, if_neg hoff] at h
    rw [if_neg hoff]
    exact Ends.bind (mp1Poke_ends hoffset (store_ends hp h))

theorem setBlink_vmem (b b' : BlinkStruct) (v : Nat → UInt8) :
    { s.setBlink p b with vmem := v }.setBlink p b' = { s.setBlink p b' with vmem := v } := by
  unfold setBlink
  rw [Function.update_idem]

/-- The walk ticks the structures one after the other. -/
theorem taskletLoop_ends {k ebx : Nat} (hvisits : Visits s.nextOf 0 ebx path)
    (hnodup : path.Nodup) (hin : ∀ p ∈ path, InArray p)
    (hscreen : ∀ p ∈ path, (s.blinkArray p).location.toNat < BLINK_COUNT)
    (hk : path.length < k) : Ends (taskletLoop k ebx) s fun _ s' => s' = s.ticked path := by
  induction path generalizing s ebx k with
  | nil =>
    cases k with
    | zero => simp at hk
    | succ k =>
      unfold taskletLoop
      rw [if_pos hvisits.nil_inv]
      exact Ends.pure rfl
  | cons p path ih =>
    cases k with
    | zero => simp at hk
    | succ k =>
      obtain ⟨rfl, hne, hnext⟩ := hvisits.cons_inv
      have hp : InArray ebx := hin ebx List.mem_cons_self
      have hfresh : ebx ∉ path := (List.nodup_cons.mp hnodup).1
      have hother : ∀ q ∈ path, (s.tickedOne ebx).blinkArray q = s.blinkArray q := by
        intro q hq
        apply Function.update_of_ne
        exact fun he => hfresh (he ▸ hq)
      have hrest : Ends (taskletLoop k (s.nextOf ebx)) (s.tickedOne ebx) fun _ s' =>
          s' = s.ticked (ebx :: path) := by
        apply ih
        · apply hnext.congr
          intro q hq
          rw [nextOf, hother q hq, nextOf]
        · exact (List.nodup_cons.mp hnodup).2
        · exact fun q hq => hin q (List.mem_cons_of_mem ebx hq)
        · intro q hq
          rw [hother q hq]
          exact hscreen q (List.mem_cons_of_mem ebx hq)
        · rw [List.length_cons] at hk
          omega
      unfold tickedOne at hrest
      unfold taskletLoop
      rw [if_neg hne]
      refine Ends.bind (load_ends hp (Ends.bind (store_ends hp ?_)))
      dsimp only
      by_cases hdue : (s.blinkArray ebx).toBlinkEntry.Due
      · rw [if_neg hdue]
        refine Ends.bind (blink_ends hp (hscreen ebx List.mem_cons_self) ?_)
        rw [BlinkEntry.tick, BlinkEntry.tickScreen, if_pos hdue, if_pos hdue] at hrest
        rw [setBlink_vmem]
        exact hrest
      · rw [BlinkEntry.tick, BlinkEntry.tickScreen, if_neg hdue, if_neg hdue] at hrest
        rw [if_pos (not_not.mp hdue)]
        exact hrest

theorem tickedOne_blinkArray_of_ne {q : Nat} (h : q ≠ p) :
    (s.tickedOne p).blinkArray q = s.blinkArray q := setBlink_of_ne h _

theorem ticked_blinkArray (hnodup : path.Nodup) (p : Nat) :
    (s.ticked path).blinkArray p =
      if p ∈ path then ⟨(s.blinkArray p).toBlinkEntry.tick, s.nextOf p⟩ else s.blinkArray p := by
  induction path generalizing s with
  | nil => rfl
  | cons q path ih =>
    have hfresh : q ∉ path := (List.nodup_cons.mp hnodup).1
    have hrest := @ih (s.tickedOne q) (List.nodup_cons.mp hnodup).2
    show ((s.tickedOne q).ticked path).blinkArray p = _
    rw [hrest]
    by_cases hq : p = q
    · subst hq
      rw [if_neg hfresh, if_pos List.mem_cons_self]
      exact setBlink_self _
    · simp only [nextOf, tickedOne_blinkArray_of_ne hq, List.mem_cons, hq, false_or]

theorem ticked_vmem (hnodup : path.Nodup) :
    (s.ticked path).vmem = (s.entries path).foldl BlinkEntry.tickScreen s.vmem := by
  induction path generalizing s with
  | nil => rfl
  | cons p path ih =>
    have hfresh : p ∉ path := (List.nodup_cons.mp hnodup).1
    have hrest := @ih (s.tickedOne p) (List.nodup_cons.mp hnodup).2
    have hentries : (s.tickedOne p).entries path = s.entries path := by
      apply entries_congr
      intro q hq
      exact tickedOne_blinkArray_of_ne fun he => hfresh (he ▸ hq)
    show ((s.tickedOne p).ticked path).vmem = _
    rw [hrest, hentries]
    rfl

theorem ticked_mp1ListHead : (s.ticked path).mp1ListHead = s.mp1ListHead := by
  induction path generalizing s with
  | nil => rfl
  | cons p path ih => exact ih

/-- The list depends on the links and the locations only. -/
theorem Lists.frame {s' : Fish} (h : s.Lists path) (hhead : s'.mp1ListHead = s.mp1ListHead)
    (hnext : ∀ p, s'.nextOf p = s.nextOf p)
    (hloc : ∀ p, (s'.blinkArray p).location = (s.blinkArray p).location) : s'.Lists path where
  linked := by
    rw [hhead]
    exact h.linked.congr fun p _ => hnext p
  free p hp := by
    rw [hloc p]
    exact h.free p hp
  onScreen p hp := by
    rw [hloc p]
    exact h.onScreen p hp

theorem Holds.tasklet {t : BlinkTable} (h : s.Holds t) :
    Ends mp1RtcTasklet s fun _ s' => s'.Holds t.tick := by
  obtain ⟨path, hlists, rfl⟩ := h
  have hlinked := hlists.linked
  have hlength : path.length < BLINK_COUNT + 1 := by
    have hle := hlinked.length_le
    rw [card_blinkPointers] at hle
    omega
  have harray := @ticked_blinkArray s path hlinked.nodup
  refine Ends.bind (loadHead_ends ((taskletLoop_ends hlinked.visits hlinked.nodup
    (fun p hp => hlists.inArray hp) hlists.onScreen hlength).mono ?_))
  rintro - s' rfl
  refine ⟨path, hlists.frame ticked_mp1ListHead ?_ ?_, ?_⟩
  · intro p
    rw [nextOf, harray p]
    split <;> rfl
  · intro p
    rw [harray p]
    split
    · exact BlinkEntry.tick_location _
    · rfl
  · rw [ticked_vmem hlinked.nodup, BlinkTable.tick]
    congr 1
    unfold entries
    rw [List.map_map]
    apply List.map_congr_left
    intro p hp
    rw [harray p, if_pos hp]
    rfl

/-! ### Looking for a location -/

/-- The pointer to the first structure of a path at a location, or null. -/
inductive Located (s : Fish) (loc : BitVec 16) (path : List Nat) : Nat → Prop
  | absent (h : ∀ q ∈ path, (s.blinkArray q).location ≠ loc) : Located s loc path 0
  | first {before rest : List Nat} {p : Nat} (hpath : path = before ++ p :: rest)
      (hbefore : ∀ q ∈ before, (s.blinkArray q).location ≠ loc)
      (hloc : (s.blinkArray p).location = loc) : Located s loc path p

theorem findLoop_ends {k ebx : Nat} {ax : BitVec 16} (hvisits : Visits s.nextOf 0 ebx path)
    (hin : ∀ p ∈ path, InArray p) (hk : path.length < k) :
    Ends (findLoop ax k ebx) s fun p s' => s' = s ∧ s.Located ax path p := by
  induction path generalizing ebx k with
  | nil =>
    cases k with
    | zero => simp at hk
    | succ k =>
      unfold findLoop
      rw [if_pos hvisits.nil_inv]
      exact Ends.pure ⟨rfl, .absent (by simp)⟩
  | cons p path ih =>
    cases k with
    | zero => simp at hk
    | succ k =>
      obtain ⟨rfl, hne, hnext⟩ := hvisits.cons_inv
      rw [List.length_cons] at hk
      unfold findLoop
      rw [if_neg hne]
      refine Ends.bind (load_ends (hin ebx List.mem_cons_self) ?_)
      by_cases hloc : (s.blinkArray ebx).location = ax
      · rw [if_pos hloc]
        exact Ends.pure ⟨rfl, @Located.first s ax _ [] path ebx rfl (by simp) hloc⟩
      · rw [if_neg hloc]
        refine (ih hnext (fun q hq => hin q (List.mem_cons_of_mem ebx hq)) (by omega)).mono ?_
        rintro r s' ⟨rfl, hr⟩
        refine ⟨rfl, ?_⟩
        cases hr with
        | absent h => exact .absent (List.forall_mem_cons.mpr ⟨hloc, h⟩)
        | first hpath hbefore hr =>
          rw [hpath]
          exact .first rfl (List.forall_mem_cons.mpr ⟨hloc, hbefore⟩) hr

theorem Lists.length_lt (h : s.Lists path) : path.length < BLINK_COUNT + 1 := by
  have hle := h.linked.length_le
  rw [card_blinkPointers] at hle
  omega

theorem Lists.findHelper (h : s.Lists path) (arg : BitVec 32) :
    Ends (mp1FindHelper arg) s fun p s' => s' = s ∧ s.Located (arg.setWidth 16) path p :=
  Ends.bind (loadHead_ends (findLoop_ends h.linked.visits (fun _ hp => h.inArray hp) h.length_lt))

theorem lookup_absent {loc : BitVec 16} {v : Nat → UInt8}
    (h : ∀ q ∈ path, (s.blinkArray q).location ≠ loc) :
    BlinkTable.lookup ⟨s.entries path, v⟩ loc = none := by
  unfold BlinkTable.lookup entries
  rw [List.find?_eq_none]
  simpa using h

theorem entries_split (before rest : List Nat) (p : Nat) :
    s.entries (before ++ p :: rest) =
      s.entries before ++ (s.blinkArray p).toBlinkEntry :: s.entries rest := by
  unfold entries
  rw [List.map_append, List.map_cons]

section First

variable {loc : BitVec 16} {before rest : List Nat}
  (hbefore : ∀ q ∈ before, (s.blinkArray q).location ≠ loc)
  (hloc : (s.blinkArray p).location = loc)

include hbefore in
theorem entries_before : ∀ e ∈ s.entries before, ¬e.location = loc := by
  intro e he
  obtain ⟨q, hq, rfl⟩ := List.mem_map.mp he
  exact hbefore q hq

include hbefore hloc

theorem lookup_first {v : Nat → UInt8} :
    BlinkTable.lookup ⟨s.entries (before ++ p :: rest), v⟩ loc =
      some (s.blinkArray p).toBlinkEntry := by
  have hnone : (s.entries before).find? (fun e => e.location = loc) = none := by
    rw [List.find?_eq_none]
    simpa using entries_before hbefore
  unfold BlinkTable.lookup
  rw [entries_split, List.find?_append, hnone, List.find?_cons_of_pos (by simpa using hloc)]
  rfl

theorem eraseP_first :
    (s.entries (before ++ p :: rest)).eraseP (fun e => e.location = loc) =
      s.entries (before ++ rest) := by
  rw [entries_split, List.eraseP_append_right _ (by simpa using entries_before hbefore),
    List.eraseP_cons_of_pos (by simpa using hloc)]
  unfold entries
  rw [List.map_append]

theorem modifyAt_first (f : BlinkEntry → BlinkEntry) :
    modifyAt loc f (s.entries (before ++ p :: rest)) =
      s.entries before ++ f (s.blinkArray p).toBlinkEntry :: s.entries rest := by
  rw [entries_split, modifyAt_append (entries_before hbefore) hloc]

end First

theorem Holds.find {t : BlinkTable} (h : s.Holds t) (arg : BlinkStruct) :
    Ends (BlinkCall.find arg).perform s fun r s' =>
      r = (t.step (.find arg)).1 ∧ s' = s := by
  obtain ⟨path, hlists, rfl⟩ := h
  have hwidth : (arg.location.setWidth 32).setWidth 16 = arg.location := by simp
  refine Ends.bind (Ends.bind_of (hlists.findHelper _) ?_)
  rintro p s' ⟨rfl, hp⟩
  rw [hwidth] at hp
  cases hp with
  | absent h =>
    refine Ends.pure (Ends.pure ⟨?_, rfl⟩)
    simp only [BlinkTable.step, lookup_absent h]
  | first hpath hbefore hloc =>
    subst hpath
    have hin : InArray p := hlists.inArray (by simp)
    rw [if_neg (by omega)]
    refine Ends.bind (load_ends hin (Ends.pure (Ends.pure ⟨?_, rfl⟩)))
    simp only [BlinkTable.step, lookup_first hbefore hloc]

/-! ### Synchronisation -/

theorem syncChar_eq (e : BlinkEntry) : syncChar e = e.offChar := by
  have hsign : (e.status.setWidth 8 &&& 1#8).msb = false := by
    rw [BitVec.msb_and, show (1#8).msb = false by decide, Bool.and_false]
  unfold syncChar
  rw [hsign]
  rfl

theorem entries_setBlink {before rest : List Nat} {b : BlinkStruct}
    (hnodup : (before ++ p :: rest).Nodup) :
    (s.setBlink p b).entries (before ++ p :: rest) =
      s.entries before ++ b.toBlinkEntry :: s.entries rest := by
  have hnot := List.nodup_middle.mp hnodup
  rw [List.nodup_cons, List.mem_append, not_or] at hnot
  have hkeep : ∀ l : List Nat, p ∉ l → (s.setBlink p b).entries l = s.entries l := by
    intro l hl
    apply entries_congr
    intro q hq
    exact setBlink_of_ne (fun he : q = p => hl (he ▸ hq)) b
  rw [entries_split, setBlink_self, hkeep before hnot.1.1, hkeep rest hnot.1.2]

theorem Lists.setBlink {b : BlinkStruct} (h : s.Lists path) (hnext : b.next = s.nextOf p)
    (hloc : b.location = (s.blinkArray p).location) : (s.setBlink p b).Lists path := by
  refine @Lists.frame s path (s.setBlink p b) h rfl ?_ ?_
  · intro q
    by_cases hq : q = p
    · rw [hq, nextOf, setBlink_self, hnext]
    · rw [nextOf, setBlink_of_ne hq, nextOf]
  · intro q
    by_cases hq : q = p
    · rw [hq, setBlink_self, hloc]
    · rw [setBlink_of_ne hq]

/-- A change of an entry that leaves it in its place. -/
theorem Lists.holds_setBlink {before rest : List Nat} {b : BlinkStruct} {v : Nat → UInt8}
    (h : s.Lists (before ++ p :: rest)) (hnext : b.next = s.nextOf p)
    (hloc : b.location = (s.blinkArray p).location) :
    Holds { s.setBlink p b with vmem := v }
      ⟨s.entries before ++ b.toBlinkEntry :: s.entries rest, v⟩ := by
  refine ⟨_, (h.setBlink hnext hloc).frame rfl (fun _ => rfl) (fun _ => rfl), ?_⟩
  rw [← entries_setBlink h.linked.nodup]
  rfl

theorem Holds.sync {t : BlinkTable} (h : s.Holds t) (arg : BitVec 32) :
    Ends (mp1IoctlSync arg) s fun r s' =>
      r = (t.sync ((arg >>> 16).setWidth 16) (arg.setWidth 16)).1 ∧
      s'.Holds (t.sync ((arg >>> 16).setWidth 16) (arg.setWidth 16)).2 := by
  obtain ⟨path, hlists, rfl⟩ := h
  have hheld : s.Holds ⟨s.entries path, s.vmem⟩ := ⟨path, hlists, rfl⟩
  have hwidth : (arg &&& 0xFFFF).setWidth 16 = arg.setWidth 16 := by
    rw [BitVec.setWidth_and]
    exact BitVec.and_allOnes
  refine Ends.bind_of (hlists.findHelper _) ?_
  rintro esi s' ⟨rfl, hesi⟩
  cases hesi with
  | absent h =>
    rw [BlinkTable.sync_absent (.inl (lookup_absent h))]
    exact Ends.pure ⟨rfl, hheld⟩
  | first hpath hbefore₁ hloc₁ =>
    have hin₁ : InArray esi := hlists.inArray (by simp [hpath])
    have hsource : BlinkTable.lookup ⟨s'.entries path, s'.vmem⟩ ((arg >>> 16).setWidth 16) =
        some (s'.blinkArray esi).toBlinkEntry := by
      rw [hpath]
      exact lookup_first hbefore₁ hloc₁
    rw [if_neg (by omega)]
    refine Ends.bind_of (hlists.findHelper _) ?_
    rintro edi s' ⟨rfl, hedi⟩
    rw [hwidth] at hedi
    cases hedi with
    | absent h =>
      rw [BlinkTable.sync_absent (.inr (lookup_absent h))]
      exact Ends.pure ⟨rfl, hheld⟩
    | @first before rest _ hpath₂ hbefore₂ hloc₂ =>
      subst hpath₂
      have hin₂ : InArray edi := hlists.inArray (by simp)
      have hcount : BLINK_COUNT = 2000 := rfl
      have hscreen := hlists.onScreen edi (by simp)
      rw [BlinkTable.sync_eq hsource (lookup_first hbefore₂ hloc₂), if_neg (by omega)]
      refine Ends.bind (load_ends hin₁ (Ends.bind (load_ends hin₂ (Ends.bind
        (store_ends hin₂ (Ends.bind (mp1Poke_ends (by dsimp only; omega) ?_)))))))
      rw [modifyAt_first hbefore₂ hloc₂, syncChar_eq]
      exact Ends.pure ⟨rfl, hlists.holds_setBlink rfl rfl⟩

/-! ### Removal -/

def linkValue (s : Fish) : Link → Nat
  | .mp1ListHead => s.mp1ListHead
  | .next q => s.nextOf q

theorem loadLink_ends {l : Link} {Q : Nat → Fish → Prop} (hl : ∀ q, l = .next q → InArray q)
    (h : Q (s.linkValue l) s) : Ends (loadLink l) s Q := by
  cases l with
  | mp1ListHead => exact loadHead_ends h
  | next q => exact loadNext_ends (hl q rfl) h

/-- The link behind the nodes of a path. -/
def lastLink (l : Link) : List Nat → Link
  | [] => l
  | q :: path => lastLink (.next q) path

theorem lastLink_concat (l : Link) (q : Nat) : lastLink l (path ++ [q]) = .next q := by
  induction path generalizing l with
  | nil => rfl
  | cons b path ih => exact ih (.next b)

theorem removeFindPrev_ends {k : Nat} {l : Link} {before rest : List Nat}
    (hl : ∀ q, l = .next q → InArray q)
    (hvisits : Visits s.nextOf 0 (s.linkValue l) (before ++ p :: rest))
    (hin : ∀ q ∈ before, InArray q) (hp : p ∉ before) (hk : before.length < k) :
    Ends (removeFindPrev p k l) s fun l' s' => s' = s ∧ l' = lastLink l before := by
  induction before generalizing l k with
  | nil =>
    cases k with
    | zero => simp at hk
    | succ k =>
      refine Ends.bind (loadLink_ends hl ?_)
      rw [if_pos hvisits.cons_inv.1]
      exact Ends.pure ⟨rfl, rfl⟩
  | cons q before ih =>
    cases k with
    | zero => simp at hk
    | succ k =>
      obtain ⟨hq, -, hnext⟩ := hvisits.cons_inv
      rw [List.mem_cons, not_or] at hp
      rw [List.forall_mem_cons] at hin
      rw [List.length_cons] at hk
      refine Ends.bind (loadLink_ends hl ?_)
      rw [hq, if_neg (Ne.symm hp.1)]
      refine ih ?_ hnext hin.2 hp.2 (by omega)
      rintro r hr
      cases hr
      exact hin.1

/-- The list without a structure, which is free from now on. -/
theorem Lists.removed {s' : Fish} {before rest : List Nat} (h : s.Lists (before ++ p :: rest))
    (hlinked : Linked blinkPointers s'.nextOf 0 s'.mp1ListHead (before ++ rest))
    (hfree : (s'.blinkArray p).location = 0)
    (hkeep : ∀ q, q ≠ p → (s'.blinkArray q).toBlinkEntry = (s.blinkArray q).toBlinkEntry)
    (hvmem : s'.vmem = s.vmem) : s'.Holds ⟨s.entries (before ++ rest), s.vmem⟩ := by
  have hnodup := List.nodup_middle.mp h.linked.nodup
  rw [List.nodup_cons] at hnodup
  have hne : ∀ q ∈ before ++ rest, q ≠ p := fun q hq he => hnodup.1 (he ▸ hq)
  have hmem : ∀ q, q ≠ p → (q ∈ before ++ p :: rest ↔ q ∈ before ++ rest) := by
    intro q hq
    simp only [List.mem_append, List.mem_cons, hq, false_or]
  refine ⟨before ++ rest, ⟨hlinked, ?_, ?_⟩, ?_⟩
  · intro q hq
    by_cases hqp : q = p
    · rw [hqp, hfree]
      exact iff_of_true rfl hnodup.1
    · rw [hkeep q hqp, h.free q hq, hmem q hqp]
  · intro q hq
    rw [hkeep q (hne q hq)]
    exact h.onScreen q ((hmem q (hne q hq)).mpr hq)
  · rw [hvmem]
    congr 1
    apply List.map_congr_left
    intro q hq
    rw [hkeep q (hne q hq)]

theorem Lists.removeHead {rest : List Nat} {b : BlinkStruct} (h : s.Lists (p :: rest))
    (hb : b.location = 0) :
    Holds ({ s with mp1ListHead := s.nextOf p }.setBlink p b) ⟨s.entries rest, s.vmem⟩ := by
  have hfresh : p ∉ rest := (List.nodup_cons.mp h.linked.nodup).1
  refine @Lists.removed s p _ [] rest h ?_ (by rw [setBlink_self, hb]) ?_ rfl
  · apply h.linked.unlinkHead.congr
    intro q hq
    rw [nextOf, setBlink_of_ne (fun he : q = p => hfresh (he ▸ hq))]
    rfl
  · intro q hq
    rw [setBlink_of_ne hq]

theorem Lists.removeBehind {q : Nat} {before rest : List Nat} {b : BlinkStruct}
    (h : s.Lists (before ++ [q] ++ p :: rest)) (hb : b.location = 0) :
    Holds ((s.setBlink q { s.blinkArray q with next := s.nextOf p }).setBlink p b)
      ⟨s.entries (before ++ [q] ++ rest), s.vmem⟩ := by
  have hlinked := h.linked
  have hnodup := (List.nodup_cons.mp (List.nodup_middle.mp hlinked.nodup)).1
  refine h.removed ?_ (by rw [setBlink_self, hb]) ?_ rfl
  · rw [List.append_assoc] at hlinked hnodup ⊢
    apply hlinked.unlink.congr
    intro r hr
    have hrp : r ≠ p := fun he => hnodup (he ▸ hr)
    rw [nextOf, setBlink_of_ne hrp]
    by_cases hrq : r = q
    · rw [hrq, setBlink_self, Function.update_self]
    · rw [setBlink_of_ne hrq, Function.update_of_ne hrq, nextOf]
  · intro r hr
    rw [setBlink_of_ne hr]
    by_cases hrq : r = q
    · rw [hrq, setBlink_self]
    · rw [setBlink_of_ne hrq]

theorem Holds.remove {t : BlinkTable} (h : s.Holds t) (arg : BitVec 32) :
    Ends (mp1IoctlRemove arg) s fun r s' =>
      r = (t.remove (arg.setWidth 16)).1 ∧ s'.Holds (t.remove (arg.setWidth 16)).2 := by
  obtain ⟨path, hlists, rfl⟩ := h
  refine Ends.bind_of (hlists.findHelper _) ?_
  rintro p s' ⟨rfl, hp⟩
  unfold BlinkTable.remove
  cases hp with
  | absent h =>
    rw [lookup_absent h]
    exact Ends.pure ⟨rfl, path, hlists, rfl⟩
  | @first before rest _ hpath hbefore hloc =>
    subst hpath
    have hin : InArray p := hlists.inArray (by simp)
    have hnodup := List.nodup_middle.mp hlists.linked.nodup
    rw [List.nodup_cons, List.mem_append, not_or] at hnodup
    have hlength := hlists.length_lt
    rw [List.length_append] at hlength
    rw [if_neg (by omega), lookup_first hbefore hloc]
    refine Ends.bind_of (removeFindPrev_ends (by simp) hlists.linked.visits
      (fun q hq => hlists.inArray (by simp [hq])) hnodup.1.1 (by omega)) ?_
    rintro l s' ⟨rfl, rfl⟩
    refine Ends.bind (loadNext_ends hin ?_)
    dsimp only
    rw [eraseP_first hbefore hloc]
    rcases List.eq_nil_or_concat before with rfl | ⟨before, q, rfl⟩
    · exact Ends.bind (storeHead_ends (Ends.bind (store_ends hin
        (Ends.pure ⟨rfl, hlists.removeHead rfl⟩))))
    · rw [List.concat_eq_append] at hlists ⊢
      rw [lastLink_concat]
      have hq : InArray q := hlists.inArray (by simp)
      exact Ends.bind (storeNext_ends hq (Ends.bind (store_ends hin
        (Ends.pure ⟨rfl, hlists.removeBehind rfl⟩))))

/-! ### Allocation -/

/-- What `mp1_malloc` returns: the first free element, or null when there is none. -/
structure FirstFree (s : Fish) (p : Nat) : Prop where
  found : p ≠ 0 → InArray p ∧ (s.blinkArray p).location = 0
  before : ∀ q, InArray q → q < p ∨ p = 0 → (s.blinkArray q).location ≠ 0

theorem mallocLoop_ends {k i : Nat} (hk : k + i = BLINK_COUNT)
    (hbefore : ∀ q, InArray q → q ≤ i → (s.blinkArray q).location ≠ 0) :
    Ends (mallocLoop k i) s fun p s' => s' = s ∧ s.FirstFree p := by
  induction k generalizing i with
  | zero =>
    refine Ends.pure ⟨rfl, fun h => absurd rfl h, ?_⟩
    intro q hq _
    exact hbefore q hq (by omega)
  | succ k ih =>
    have hin : InArray (i + 1) := by omega
    refine Ends.bind (load_ends hin ?_)
    by_cases hfree : (s.blinkArray (i + 1)).location = 0
    · rw [if_pos hfree]
      refine Ends.pure ⟨rfl, fun _ => ⟨hin, hfree⟩, ?_⟩
      intro q hq hlt
      exact hbefore q hq (by omega)
    · rw [if_neg hfree]
      apply ih (by omega)
      intro q hq hle
      rcases Nat.lt_or_eq_of_le hle with hlt | rfl
      · exact hbefore q hq (by omega)
      · exact hfree

theorem mp1Malloc_ends : Ends mp1Malloc s fun p s' => s' = s ∧ s.FirstFree p :=
  mallocLoop_ends rfl fun q hq hle => by omega

theorem FirstFree.unique {q : Nat} (hp : s.FirstFree p) (hq : s.FirstFree q) : p = q := by
  by_contra hne
  rcases (show (p ≠ 0 ∧ (p < q ∨ q = 0)) ∨ (q ≠ 0 ∧ (q < p ∨ p = 0)) by omega) with h | h
  · exact hq.before p (hp.found h.1).1 h.2 (hp.found h.1).2
  · exact hp.before q (hq.found h.1).1 h.2 (hq.found h.1).2

/-- The state after a structure has been taken and put in front of the list. -/
def added (s : Fish) (p : Nat) (e : BlinkEntry) : Fish :=
  { s.setBlink p ⟨e.started, s.mp1ListHead⟩ with
    mp1ListHead := p
    vmem := Function.update s.vmem e.offset e.onChar }

theorem mp1IoctlAdd_ends {arg : BlinkStruct} (hscreen : arg.location.toNat < BLINK_COUNT)
    (hp : s.FirstFree p) (hne : p ≠ 0) :
    Ends (mp1IoctlAdd arg) s fun r s' => r = 0 ∧ s' = s.added p arg.toBlinkEntry := by
  have hcount : BLINK_COUNT = 2000 := rfl
  have hin := (hp.found hne).1
  unfold mp1IoctlAdd
  rw [if_neg (by omega)]
  refine Ends.bind_of mp1Malloc_ends ?_
  rintro q s' ⟨rfl, hq⟩
  rw [hq.unique hp, if_neg hne]
  refine Ends.bind (store_ends hin (Ends.bind (loadHead_ends (Ends.bind (storeNext_ends hin
    (Ends.bind (storeHead_ends (Ends.bind (load_ends hin ?_)))))))))
  simp only [setBlink_self, setBlink_setBlink]
  exact Ends.bind (mp1Poke_ends (by omega) (Ends.pure ⟨rfl, rfl⟩))

/-- The array is full when every element is on the list. -/
theorem Lists.full_iff (h : s.Lists path) (hp : s.FirstFree p) :
    p = 0 ↔ path.length = BLINK_COUNT := by
  constructor
  · intro hzero
    have hsub : blinkPointers ⊆ path.toFinset := by
      intro q hq
      rw [mem_blinkPointers] at hq
      rw [List.mem_toFinset]
      by_contra hnot
      exact hp.before q hq (.inr hzero) ((h.free q hq).mpr hnot)
    have hcard := Finset.card_le_card hsub
    rw [card_blinkPointers, List.toFinset_card_of_nodup h.linked.nodup] at hcard
    have hlength := h.length_lt
    omega
  · intro hfull
    by_contra hne
    obtain ⟨hin, hloc⟩ := hp.found hne
    have hpush := (h.linked.push ((h.free p hin).mp hloc) (mem_blinkPointers.mpr hin) hne).length_le
    rw [card_blinkPointers, List.length_cons] at hpush
    omega

theorem Lists.added {b : BlinkStruct} {v : Nat → UInt8} (h : s.Lists path) (hin : InArray p)
    (hfree : (s.blinkArray p).location = 0) (hloc : b.location ≠ 0)
    (hscreen : b.location.toNat < BLINK_COUNT) (hnext : b.next = s.mp1ListHead) :
    Holds { s.setBlink p b with mp1ListHead := p, vmem := v }
      ⟨b.toBlinkEntry :: s.entries path, v⟩ := by
  have hfresh : p ∉ path := (h.free p hin).mp hfree
  have hne : ∀ q ∈ path, q ≠ p := fun q hq he => hfresh (he ▸ hq)
  refine ⟨p :: path, ⟨?_, ?_, ?_⟩, ?_⟩
  · apply (h.linked.push hfresh (mem_blinkPointers.mpr hin) (by omega)).congr
    intro q _
    show ((s.setBlink p b).blinkArray q).next = _
    by_cases hq : q = p
    · rw [hq, setBlink_self, Function.update_self, hnext]
    · rw [setBlink_of_ne hq, Function.update_of_ne hq, nextOf]
  · intro q hq
    show ((s.setBlink p b).blinkArray q).location = 0 ↔ _
    by_cases hqp : q = p
    · rw [hqp, setBlink_self]
      exact iff_of_false hloc (by simp)
    · rw [setBlink_of_ne hqp, h.free q hq, List.mem_cons, not_or]
      exact (and_iff_right hqp).symm
  · intro q hq
    show ((s.setBlink p b).blinkArray q).location.toNat < _
    rcases List.mem_cons.mp hq with rfl | hq
    · rw [setBlink_self]
      exact hscreen
    · rw [setBlink_of_ne (hne q hq)]
      exact h.onScreen q hq
  · show _ = BlinkTable.mk ((s.setBlink p b).entries (p :: path)) v
    rw [← entries_congr fun q hq => setBlink_of_ne (hne q hq) b]
    unfold entries
    rw [List.map_cons, setBlink_self]

theorem Holds.add {t : BlinkTable} (h : s.Holds t) {arg : BlinkStruct} (harg : arg.location ≠ 0) :
    Ends (mp1IoctlAdd arg) s fun r s' =>
      r = (t.add arg.toBlinkEntry).1 ∧ s'.Holds (t.add arg.toBlinkEntry).2 := by
  obtain ⟨path, hlists, rfl⟩ := h
  have hheld : s.Holds ⟨s.entries path, s.vmem⟩ := ⟨path, hlists, rfl⟩
  have hlength : (s.entries path).length = path.length := List.length_map _
  unfold BlinkTable.add
  rw [hlength]
  by_cases hscreen : arg.location.toNat ≥ 80 * 25
  · unfold mp1IoctlAdd
    rw [if_pos hscreen, if_pos (.inl hscreen)]
    exact Ends.pure ⟨rfl, hheld⟩
  · obtain ⟨p, s', -, rfl, hp⟩ := mp1Malloc_ends (s := s)
    have hfull := hlists.full_iff hp
    by_cases hzero : p = 0
    · subst hzero
      unfold mp1IoctlAdd
      rw [if_neg hscreen, if_pos (.inr (hfull.mp rfl))]
      refine Ends.bind_of mp1Malloc_ends ?_
      rintro q s'' ⟨rfl, hq⟩
      rw [if_pos (hq.unique hp)]
      exact Ends.pure ⟨rfl, hheld⟩
    · have hfree := hp.found hzero
      rw [if_neg (by rw [← hfull]; exact not_or.mpr ⟨hscreen, hzero⟩)]
      refine (mp1IoctlAdd_ends (Nat.lt_of_not_ge hscreen) hp hzero).mono ?_
      rintro r s'' ⟨rfl, rfl⟩
      exact ⟨rfl, hlists.added hfree.1 hfree.2 harg (Nat.lt_of_not_ge hscreen) rfl⟩

end Fish

/-! ## Runs -/

/-- No entry is added where `mp1_malloc` would take it for a free one. -/
def BlinkCall.Proper : BlinkCall → Prop
  | .add arg => arg.location ≠ 0
  | _ => True

theorem BlinkCall.perform_refines {call : BlinkCall} (hcall : call.Proper) {s : Fish}
    {t : BlinkTable} (h : s.Holds t) :
    Ends call.perform s fun r s' => r = (t.step call).1 ∧ s'.Holds (t.step call).2 := by
  cases call with
  | tasklet =>
    refine Ends.bind_of h.tasklet ?_
    intro _ s' hs'
    exact Ends.pure ⟨rfl, hs'⟩
  | add arg =>
    refine Ends.bind_of (h.add hcall) ?_
    rintro r s' ⟨rfl, hs'⟩
    exact Ends.pure ⟨rfl, hs'⟩
  | remove arg =>
    refine Ends.bind_of (h.remove arg) ?_
    rintro r s' ⟨rfl, hs'⟩
    exact Ends.pure ⟨rfl, hs'⟩
  | find arg =>
    refine (h.find arg).mono ?_
    rintro r s' ⟨hr, rfl⟩
    rw [t.step_find arg]
    exact ⟨hr, h⟩
  | sync arg =>
    refine Ends.bind_of (h.sync arg) ?_
    rintro r s' ⟨rfl, hs'⟩
    exact Ends.pure ⟨rfl, hs'⟩

/-- Over any sequence of calls the list answers as the table does. -/
theorem BlinkCall.performAll_refines {calls : List BlinkCall}
    (hcalls : ∀ call ∈ calls, call.Proper) {s : Fish} {t : BlinkTable} (h : s.Holds t) :
    Ends (BlinkCall.performAll calls) s fun answers s' =>
      answers = (t.steps calls).1 ∧ s'.Holds (t.steps calls).2 := by
  induction calls generalizing s t with
  | nil => exact Ends.pure ⟨rfl, h⟩
  | cons call calls ih =>
    rw [List.forall_mem_cons] at hcalls
    refine Ends.bind_of (BlinkCall.perform_refines hcalls.1 h) ?_
    rintro r s₁ ⟨rfl, h₁⟩
    refine Ends.bind_of (ih hcalls.2 h₁) ?_
    rintro rs s₂ ⟨rfl, h₂⟩
    exact Ends.pure ⟨rfl, h₂⟩

/-- The state after `ece391_memset` at the start of `main`. -/
def clearedFish (vmem : Nat → UInt8) : Fish := ⟨fun _ => ⟨⟨0, 0, 0, 0, 0, 0, 0⟩, 0⟩, 0, vmem⟩

theorem clearedFish_holds (vmem : Nat → UInt8) : (clearedFish vmem).Holds ⟨[], vmem⟩ :=
  ⟨[], ⟨⟨.done, List.nodup_nil, by simp⟩, fun _ _ => by simp [clearedFish], by simp⟩, rfl⟩

/-- From the cleared array, every sequence of proper calls ends with the answers of the table, and
with the list of its entries. -/
theorem blink_refines (vmem : Nat → UInt8) {calls : List BlinkCall}
    (hcalls : ∀ call ∈ calls, call.Proper) :
    Ends (BlinkCall.performAll calls) (clearedFish vmem) fun answers s =>
      answers = (BlinkTable.steps calls ⟨[], vmem⟩).1 ∧
      s.Holds (BlinkTable.steps calls ⟨[], vmem⟩).2 :=
  BlinkCall.performAll_refines hcalls (clearedFish_holds vmem)

-- the structure that `main` adds
def letterBlink : BlinkStruct := ⟨⟨6 * 80 + 60, 0x49, 0x4D, 7, 6, 0, 0⟩, 0⟩

theorem blink_refines_letter :
    let calls := [.add letterBlink, .tasklet, .find letterBlink, .remove 540, .remove 540]
    Ends (BlinkCall.performAll calls) (clearedFish fun _ => 0) fun answers s =>
      answers = (BlinkTable.steps calls ⟨[], fun _ => 0⟩).1 ∧
      s.Holds (BlinkTable.steps calls ⟨[], fun _ => 0⟩).2 := by
  apply blink_refines
  have hletter : letterBlink.location ≠ 0 := by decide
  simpa [BlinkCall.Proper] using hletter

/-! ## Location zero -/

namespace Fish

variable {s : Fish} {p : Nat}

/-- A structure that is its own successor keeps the tasklet for ever. -/
theorem taskletLoop_cycle {k : Nat} (hin : InArray p) (hnext : s.nextOf p = p)
    (hscreen : (s.blinkArray p).location.toNat < BLINK_COUNT) : taskletLoop k p s = none := by
  induction k generalizing s with
  | zero => rfl
  | succ k ih =>
    unfold taskletLoop
    rw [if_neg (by omega)]
    refine Ends.bind_eq_none (P := fun b t => b = s.blinkArray p ∧ t = s)
      (load_ends hin ⟨rfl, rfl⟩) ?_
    rintro b t ⟨rfl, rfl⟩
    refine Ends.bind_eq_none (P := fun _ t' => t'.nextOf p = p ∧
      (t'.blinkArray p).location.toNat < BLINK_COUNT) (store_ends hin ?_) ?_
    · rw [nextOf, setBlink_self]
      exact ⟨hnext, hscreen⟩
    rintro - t' ⟨hnext', hscreen'⟩
    dsimp only
    rw [show (t.blinkArray p).next = p from hnext]
    split
    · exact ih hnext' hscreen'
    · refine Ends.bind_eq_none (P := fun _ t' => t'.nextOf p = p ∧
        (t'.blinkArray p).location.toNat < BLINK_COUNT) (blink_ends hin hscreen ?_) ?_
      · rw [nextOf, setBlink_self]
        exact ⟨rfl, hscreen⟩
      · rintro - t'' ⟨hnext'', hscreen''⟩
        exact ih hnext'' hscreen''

/-- After an entry has been added at location zero its structure still counts as free. -/
theorem FirstFree.added {e : BlinkEntry} (hp : s.FirstFree p) (hne : p ≠ 0) (he : e.location = 0) :
    (s.added p e).FirstFree p where
  found _ := by
    refine ⟨(hp.found hne).1, ?_⟩
    show ((s.setBlink p _).blinkArray p).location = 0
    rw [setBlink_self]
    exact he
  before q hq hlt := by
    show ((s.setBlink p _).blinkArray q).location ≠ 0
    rw [setBlink_of_ne (by omega)]
    exact hp.before q hq hlt

end Fish

/-- Once an entry has been added at location zero, the next entry on the screen is put in the same
place and becomes its own successor: however long it walks, the tasklet does not return. -/
theorem zero_location_hangs {s : Fish} {t : BlinkTable} (h : s.Holds t)
    (hroom : t.entries.length < BLINK_COUNT) {zero arg : BlinkStruct} (hzero : zero.location = 0)
    (harg : arg.location.toNat < BLINK_COUNT) :
    Ends (BlinkCall.performAll [.add zero, .add arg]) s fun answers s' =>
      answers = [⟨0, none⟩, ⟨0, none⟩] ∧ InArray s'.mp1ListHead ∧
      s'.nextOf s'.mp1ListHead = s'.mp1ListHead ∧
      (∀ k, Fish.taskletLoop k s'.mp1ListHead s' = none) ∧ Fish.mp1RtcTasklet s' = none := by
  obtain ⟨path, hlists, rfl⟩ := h
  obtain ⟨p, s', -, rfl, hp⟩ := Fish.mp1Malloc_ends (s := s)
  have hlength : (s'.entries path).length = path.length := List.length_map _
  have hne : p ≠ 0 := by
    rw [Ne, hlists.full_iff hp, ← hlength]
    exact Nat.ne_of_lt hroom
  have hfirst : zero.location.toNat < BLINK_COUNT := by
    rw [hzero]
    decide
  refine Ends.bind (Ends.bind_of (Fish.mp1IoctlAdd_ends hfirst hp hne) ?_)
  rintro r s₁ ⟨rfl, rfl⟩
  have hp₁ := hp.added hne hzero
  refine Ends.pure (Ends.bind (Ends.bind (Ends.bind_of (Fish.mp1IoctlAdd_ends harg hp₁ hne) ?_)))
  rintro r s₂ ⟨rfl, rfl⟩
  have hin := (hp.found hne).1
  have hself : ((s'.added p zero.toBlinkEntry).added p arg.toBlinkEntry).blinkArray p =
      ⟨arg.toBlinkEntry.started, p⟩ := Fish.setBlink_self _
  have hnext : ((s'.added p zero.toBlinkEntry).added p arg.toBlinkEntry).nextOf p = p := by
    rw [Fish.nextOf, hself]
  have hloop : ∀ k, Fish.taskletLoop k p
      ((s'.added p zero.toBlinkEntry).added p arg.toBlinkEntry) = none := by
    intro k
    apply Fish.taskletLoop_cycle hin hnext
    rw [hself]
    exact harg
  exact Ends.pure (Ends.bind (Ends.pure (Ends.pure
    (Ends.pure ⟨rfl, hin, hnext, hloop, hloop (BLINK_COUNT + 1)⟩))))

theorem zero_location_hangs_letter :
    Ends (BlinkCall.performAll [.add ⟨⟨0, 0x49, 0x4D, 7, 6, 0, 0⟩, 0⟩, .add letterBlink])
      (clearedFish fun _ => 0) fun answers s' =>
        answers = [⟨0, none⟩, ⟨0, none⟩] ∧ InArray s'.mp1ListHead ∧
        s'.nextOf s'.mp1ListHead = s'.mp1ListHead ∧
        (∀ k, Fish.taskletLoop k s'.mp1ListHead s' = none) ∧ Fish.mp1RtcTasklet s' = none :=
  zero_location_hangs (clearedFish_holds _) (by decide) rfl (by decide)

end Kernel391
