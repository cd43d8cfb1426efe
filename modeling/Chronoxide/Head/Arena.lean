import Chronoxide.Codec.Layout
import Chronoxide.Encoding.Io
import Mathlib.Algebra.BigOperators.Group.List.Basic
import Mathlib.Data.List.ModifyLast

/-! The arena of encoded blocks (`arena.rs`). A write is appended to the used part of the last page
or starts a page; the used parts are what references read, before and after freezing. -/

namespace Chronoxide.Arena
open Codec List

structure BufferRef where
  page : UInt32
  offset : UInt32
  len : UInt32
  deriving DecidableEq, Repr

/-- The buffer of a page, split behind its used part: no page uses more than its buffer. -/
structure ArenaPage where
  used : Bytes
  free : Bytes
  deriving DecidableEq, Repr

structure BlockArena where
  pages : List ArenaPage
  pageSize : Nat
  maxPageSize : Nat
  adaptive : Bool
  deriving DecidableEq, Repr

structure FrozenBlockArena where
  pages : List Bytes
  usedBytes : Nat
  deriving DecidableEq, Repr

/-- The answers of the allocator: the text of an error, or nothing. -/
abbrev Allocator := String → Option String

def tryReserve (allocator : Allocator) (what : String) : Except IoError Unit :=
  match allocator what with
  | some error => .error ⟨.outOfMemory, s!"failed to reserve {what}: {error}"⟩
  | none => .ok ()

def checkedBufferRef (page offset len : Nat) : Except IoError BufferRef := do
  require (page < 2 ^ 32) (invalidInput "head block arena page index exceeds BufferRef")
  require (offset < 2 ^ 32) (invalidInput "head block arena offset exceeds BufferRef")
  require (len < 2 ^ 32) (invalidInput "head block arena length exceeds BufferRef")
  return ⟨.ofNat page, .ofNat offset, .ofNat len⟩

def checkedSlice (used : Bytes) (ref : BufferRef) : Except IoError Bytes := do
  let stop := ref.offset.toNat + ref.len.toNat
  require (stop < 2 ^ 64) (invalidData "head block buffer range overflows")
  require (stop ≤ used.length) (invalidData "head block buffer range exceeds used arena bytes")
  return fieldAt used ref.offset.toNat ref.len.toNat

def sliceOf (pages : List Bytes) (missing : String) (ref : BufferRef) : Except IoError Bytes :=
  match pages[ref.page.toNat]? with
  | none => .error (invalidData missing)
  | some page => checkedSlice page ref

def FrozenBlockArena.slice (a : FrozenBlockArena) : BufferRef → Except IoError Bytes :=
  sliceOf a.pages "head block buffer references a missing frozen arena page"

namespace BlockArena

def new (pageSize : Nat) : BlockArena := ⟨[], max pageSize 1, max pageSize 1, false⟩

def newGeometric (initialPageSize maxPageSize : Nat) : BlockArena :=
  ⟨[], min (max initialPageSize 1) (max maxPageSize 1), max maxPageSize 1, true⟩

variable (a : BlockArena) (allocator : Allocator)

def allocPage (len : Nat) : Except IoError (BufferRef × BlockArena) := do
  let ref ← checkedBufferRef a.pages.length 0 len
  tryReserve allocator "head block arena page"
  tryReserve allocator "head block arena page directory"
  let doubled := if a.pageSize * 2 < 2 ^ 64 then a.pageSize * 2 else a.maxPageSize
  return (ref, { a with
    pages := a.pages ++ [⟨replicate len 0, replicate (max a.pageSize len - len) 0⟩]
    pageSize := if a.adaptive then min doubled a.maxPageSize else a.pageSize })

def tryAlloc (len : Nat) : Except IoError (BufferRef × BlockArena) := do
  let len := max len 1
  require (len < 2 ^ 32) (invalidInput "head block allocation length exceeds BufferRef")
  match a.pages.getLast? with
  | none => a.allocPage allocator len
  | some page =>
    if page.free.length < len then a.allocPage allocator len
    else
      let ref ← checkedBufferRef (a.pages.length - 1) page.used.length len
      require (page.used.length + len < 2 ^ 64) (invalidInput "head block allocation overflows")
      return (ref, { a with pages := a.pages.modifyLast fun page =>
        ⟨page.used ++ page.free.take len, page.free.drop len⟩ })

def copyFromSlice (ref : BufferRef) (data : Bytes) : BlockArena :=
  { a with pages := a.pages.modify ref.page.toNat fun page =>
      { page with used := overwrite page.used ref.offset.toNat data } }

def tryWrite (data : Bytes) : Except IoError (BufferRef × BlockArena) :=
  if data.isEmpty then a.tryAlloc allocator 0
  else do
    let (ref, a) ← a.tryAlloc allocator data.length
    return (ref, a.copyFromSlice ref data)

def lastUsed : Nat := (a.pages.getLast?.map (·.used.length)).getD 0

def rollbackPairWrite (pageCount lastUsed nextPageSize : Nat) : BlockArena :=
  { a with
    pages := (a.pages.take pageCount).modifyLast fun page =>
      ⟨page.used.take lastUsed, page.used.drop lastUsed ++ page.free⟩
    pageSize := nextPageSize }

def tryWritePair (allocator' : Allocator) (first second : Bytes) :
    Except IoError (BufferRef × BufferRef) × BlockArena :=
  match a.tryWrite allocator first with
  | .error e => (.error e, a.rollbackPairWrite a.pages.length a.lastUsed a.pageSize)
  | .ok (firstRef, now) =>
    match now.tryWrite allocator' second with
    | .error e => (.error e, now.rollbackPairWrite a.pages.length a.lastUsed a.pageSize)
    | .ok (secondRef, last) => (.ok (firstRef, secondRef), last)

def contents : List Bytes := a.pages.map (·.used)

def slice : BufferRef → Except IoError Bytes :=
  sliceOf a.contents "head block buffer references a missing arena page"

def freezePage (usedBytes : Nat) (page : Bytes × Nat) : Except IoError Nat := do
  require (page.2 < 2 ^ 32) (invalidData "head block arena page index exceeds BufferRef")
  require (usedBytes + page.1.length < 2 ^ 64)
    (invalidData "head block arena used-byte accounting overflows")
  return usedBytes + page.1.length

/-- Every page has an answer of its own. On failure the arena is handed back with the error. -/
def tryFreeze (allocator : Nat → Allocator) : Except (IoError × BlockArena) FrozenBlockArena :=
  let frozen : Except IoError FrozenBlockArena := do
    let usedBytes ← a.contents.zipIdx.foldlM freezePage 0
    tryReserve (allocator a.pages.length) "frozen arena page directory"
    (range a.pages.length).forM fun i => tryReserve (allocator i) "exact frozen arena page"
    return ⟨a.contents, usedBytes⟩
  frozen.mapError (·, a)

variable {a} {a' : BlockArena} {allocator} {data : Bytes} {ref : BufferRef}

/-- The data stand behind the used part of the last page, or on a page that is new. -/
def Appends (a : BlockArena) (data : Bytes) (ref : BufferRef) (a' : BlockArena) : Prop :=
  ∃ init page free, (a.pages = init ++ [page] ∨ a.pages = init ∧ page.used = []) ∧
    a'.pages = init ++ [⟨page.used ++ data, free⟩] ∧ ref.page.toNat = init.length ∧
    ref.offset.toNat = page.used.length ∧ ref.len.toNat = data.length

theorem copyFromSlice_appends {now : BlockArena} {init : List ArenaPage} {page : ArenaPage}
    {allocated free : Bytes} (hpages : a.pages = init ++ [page] ∨ a.pages = init ∧ page.used = [])
    (hnow : now.pages = init ++ [⟨page.used ++ allocated, free⟩])
    (hlength : allocated.length = data.length)
    (href : checkedBufferRef init.length page.used.length data.length = .ok ref) :
    a.Appends data ref (now.copyFromSlice ref data) := by
  simp only [checkedBufferRef, require_bind_ok, except_pure_ok] at href
  obtain ⟨hpage, hoffset, hlen, rfl⟩ := href
  have hpage := UInt32.toNat_ofNat_of_lt' hpage
  have hoffset := UInt32.toNat_ofNat_of_lt' hoffset
  have hover : overwrite (page.used ++ allocated) page.used.length data = page.used ++ data := by
    rw [← append_nil allocated, overwrite_append rfl hlength, append_nil]
  refine ⟨init, page, free, hpages, ?_, hpage, hoffset, UInt32.toNat_ofNat_of_lt' hlen⟩
  simp only [copyFromSlice, hnow, hpage, hoffset]
  simp [modify_eq_take_cons_drop, hover]

theorem allocPage_appends {now : BlockArena}
    (h : a.allocPage allocator data.length = .ok (ref, now)) :
    a.Appends data ref (now.copyFromSlice ref data) := by
  simp only [allocPage, except_bind_ok, except_pure_ok, Prod.mk.injEq] at h
  obtain ⟨ref, href, -, -, -, -, rfl, rfl⟩ := h
  have hempty : a.pages = a.pages ∧ (⟨[], []⟩ : ArenaPage).used = [] := ⟨rfl, rfl⟩
  exact copyFromSlice_appends (.inr hempty) rfl length_replicate href

theorem tryWrite_appends (hdata : data ≠ []) (h : a.tryWrite allocator data = .ok (ref, a')) :
    a.Appends data ref a' := by
  rw [tryWrite, if_neg (by simpa using hdata), except_bind_ok] at h
  obtain ⟨⟨ref, now⟩, halloc, h⟩ := h
  cases except_pure_ok.mp h
  rw [tryAlloc, Nat.max_eq_left (length_pos_of_ne_nil hdata), require_bind_ok] at halloc
  obtain ⟨-, halloc⟩ := halloc
  rcases eq_nil_or_concat' a.pages with hpages | ⟨init, page, hpages⟩
  · rw [hpages] at halloc
    exact allocPage_appends halloc
  rw [hpages, getLast?_concat] at halloc
  dsimp only at halloc
  split at halloc
  · exact allocPage_appends halloc
  rename_i hroom
  simp only [except_bind_ok, except_pure_ok, Prod.mk.injEq] at halloc
  obtain ⟨ref, href, -, -, rfl, rfl⟩ := halloc
  rw [length_append, length_singleton, Nat.add_sub_cancel] at href
  refine copyFromSlice_appends (.inl hpages) (by rw [modifyLast_concat]) ?_ href
  rw [length_take]
  omega

theorem modifyLast_self (a : BlockArena) : a.pages.modifyLast (fun page =>
    ⟨page.used.take a.lastUsed, page.used.drop a.lastUsed ++ page.free⟩) = a.pages := by
  rcases eq_nil_or_concat' a.pages with hpages | ⟨init, page, hpages⟩ <;> rw [lastUsed, hpages]
  · rfl
  · simp [modifyLast_concat]

theorem tryWritePair_cases {allocator' : Allocator} {first second : Bytes} (hfirst : first ≠ [])
    (hsecond : second ≠ []) {outcome : Except IoError (BufferRef × BufferRef) × BlockArena}
    (h : a.tryWritePair allocator allocator' first second = outcome) :
    (∃ firstRef secondRef now, outcome.1 = .ok (firstRef, secondRef) ∧
      a.Appends first firstRef now ∧ now.Appends second secondRef outcome.2) ∨
    (∃ error, outcome.1 = .error error) ∧ outcome.2.contents = a.contents ∧
      outcome.2.pageSize = a.pageSize := by
  subst h
  unfold tryWritePair
  split
  · refine .inr ⟨⟨_, rfl⟩, ?_, rfl⟩
    simp only [rollbackPairWrite, contents, take_length, modifyLast_self]
  rename_i firstRef now hwrite
  have happends := tryWrite_appends hfirst hwrite
  split
  · refine .inr ⟨⟨_, rfl⟩, ?_, rfl⟩
    -- the first write is undone: its page is dropped, or what it appended to its page
    obtain ⟨init, page, free, hpages | ⟨rfl, -⟩, hnow, -⟩ := happends
    · simp [rollbackPairWrite, contents, lastUsed, hpages, hnow, take_of_length_le,
        modifyLast_concat]
    · simp [rollbackPairWrite, contents, hnow, modifyLast_self]
  · rename_i secondRef last hwrite'
    exact .inl ⟨firstRef, secondRef, now, rfl, happends, tryWrite_appends hsecond hwrite'⟩

def Holds (contents : List Bytes) (ref : BufferRef) (data : Bytes) : Prop :=
  ∃ bytes, contents[ref.page.toNat]? = some bytes ∧
    ref.offset.toNat + ref.len.toNat ≤ bytes.length ∧
    fieldAt bytes ref.offset.toNat ref.len.toNat = data

def Apart (r s : BufferRef) : Prop :=
  r.page = s.page → r.offset.toNat + r.len.toNat ≤ s.offset.toNat ∨
    s.offset.toNat + s.len.toNat ≤ r.offset.toNat

theorem Holds.sliceOf {pages : List Bytes} (h : Holds pages ref data) (missing : String) :
    Arena.sliceOf pages missing ref = .ok data := by
  obtain ⟨bytes, hget, hle, rfl⟩ := h
  have hoffset := ref.offset.toNat_lt
  have hlen := ref.len.toNat_lt
  rw [Arena.sliceOf, hget]
  dsimp only
  rw [checkedSlice, require_pos (by omega), require_pos hle]
  rfl

theorem Appends.holds (h : a.Appends data ref a') : Holds a'.contents ref data ∧
    ∀ r d, Holds a.contents r d → Holds a'.contents r d ∧ Apart ref r := by
  obtain ⟨init, page, free, hpages, hpages', hpage, hoffset, hlen⟩ := h
  have hcontents : a'.contents = init.map (·.used) ++ [page.used ++ data] := by
    simp [contents, hpages']
  rw [← length_map (·.used)] at hpage
  rw [hcontents]
  refine ⟨⟨page.used ++ data, by simp [hpage], by rw [hoffset, hlen, length_append], ?_⟩, ?_⟩
  · rw [← append_nil data, fieldAt_middle data hoffset hlen, append_nil]
  rintro r d ⟨bytes, hbytes, hle, rfl⟩
  -- on an earlier page nothing changes; the last one is longer
  have hold : (init.map (·.used))[r.page.toNat]? = some bytes ∧ r.page.toNat < ref.page.toNat ∨
      r.page.toNat = ref.page.toNat ∧ bytes = page.used := by
    rcases hpages with hpages | ⟨rfl, -⟩
    · rw [contents, hpages, map_append, map_singleton, getElem?_append] at hbytes
      grind
    · grind [contents]
  rcases hold with ⟨hbytes, hearlier⟩ | ⟨hsame, rfl⟩
  · refine ⟨⟨bytes, ?_, hle, rfl⟩, fun h => ?_⟩
    · rwa [getElem?_append_left (hpage ▸ hearlier)]
    · rw [h] at hearlier
      omega
  · refine ⟨⟨page.used ++ data, by simp [hsame, hpage], ?_, fieldAt_append_left hle⟩,
      fun _ => .inr (by omega)⟩
    rw [length_append]
    omega

theorem tryFreeze_pages {allocator : Nat → Allocator} {frozen : FrozenBlockArena}
    (h : a.tryFreeze allocator = .ok frozen) :
    ∃ usedBytes, frozen = ⟨a.contents, usedBytes⟩ := by
  unfold tryFreeze Except.mapError at h
  dsimp only at h
  split at h
  · cases h
  rename_i hfrozen
  cases h
  simp only [except_bind_ok, except_pure_ok] at hfrozen
  obtain ⟨usedBytes, -, -, -, -, -, rfl⟩ := hfrozen
  exact ⟨usedBytes, rfl⟩

theorem foldlM_freezePage (pages : List Bytes) (start usedBytes : Nat)
    (hstart : start + pages.length ≤ 2 ^ 32) (hused : usedBytes + (pages.map length).sum < 2 ^ 64) :
    (pages.zipIdx start).foldlM freezePage usedBytes =
      .ok (usedBytes + (pages.map length).sum) := by
  induction pages generalizing start usedBytes with
  | nil => rfl
  | cons page rest ih =>
    rw [length_cons] at hstart
    rw [map_cons, sum_cons, ← Nat.add_assoc] at hused ⊢
    rw [zipIdx_cons, foldlM_cons, freezePage, require_pos (by omega), require_pos (by dsimp; omega)]
    exact ih (start + 1) _ (by omega) hused

theorem tryFreeze_ok {allocator : Nat → Allocator} (hgrants : ∀ i what, allocator i what = none)
    (hpages : a.pages.length ≤ 2 ^ 32) (hused : (a.contents.map length).sum < 2 ^ 64) :
    ∃ frozen, a.tryFreeze allocator = .ok frozen := by
  have hreserve : ∀ i what, tryReserve (allocator i) what = .ok () := by
    intro i what
    rw [tryReserve, hgrants]
  have hexact : ∀ indexes : List Nat,
      (indexes.forM fun i => tryReserve (allocator i) "exact frozen arena page") = .ok () := by
    intro indexes
    induction indexes with
    | nil => rfl
    | cons i rest ih =>
      rw [List.forM, hreserve]
      exact ih
  have hfold := foldlM_freezePage a.contents 0 0 (by simpa [contents] using hpages)
    (by simpa using hused)
  rw [tryFreeze, hfold, hreserve, hexact]
  exact ⟨_, rfl⟩

end BlockArena

open BlockArena

abbrev Data := { data : Bytes // data ≠ [] }

inductive ArenaCall
  | tryWrite (allocator : Allocator) (data : Data)
  | tryWritePair (allocator allocator' : Allocator) (first second : Data)

/-- The arena with the references it returned and what they were written with, newest first. -/
structure ArenaRun where
  arena : BlockArena
  log : List (BufferRef × Bytes)

namespace ArenaRun

def call (run : ArenaRun) : ArenaCall → ArenaRun
  | .tryWrite allocator data =>
    match run.arena.tryWrite allocator data.1 with
    | .ok (ref, arena) => ⟨arena, (ref, data.1) :: run.log⟩
    | .error _ => run
  | .tryWritePair allocator allocator' first second =>
    match run.arena.tryWritePair allocator allocator' first.1 second.1 with
    | (.ok (ref, ref'), arena) => ⟨arena, (ref', second.1) :: (ref, first.1) :: run.log⟩
    | (.error _, arena) => { run with arena }

structure Sound (run : ArenaRun) : Prop where
  holds : ∀ e ∈ run.log, Holds run.arena.contents e.1 e.2
  apart : run.log.Pairwise fun e e' => Apart e.1 e'.1

theorem Sound.append {arena arena' : BlockArena} {log : List (BufferRef × Bytes)} {ref : BufferRef}
    {data : Bytes} (h : Sound ⟨arena, log⟩) (happends : arena.Appends data ref arena') :
    Sound ⟨arena', (ref, data) :: log⟩ := by
  obtain ⟨hnew, hold⟩ := happends.holds
  refine ⟨forall_mem_cons.mpr ⟨hnew, ?_⟩, pairwise_cons.mpr ⟨?_, h.apart⟩⟩
  · intro e he
    exact (hold _ _ (h.holds e he)).1
  · intro e he
    exact (hold _ _ (h.holds e he)).2

theorem Sound.call {run : ArenaRun} (h : run.Sound) (call : ArenaCall) : (run.call call).Sound := by
  cases call with
  | tryWrite allocator data =>
    dsimp only [ArenaRun.call]
    split
    · rename_i hwrite
      exact h.append (tryWrite_appends data.2 hwrite)
    · exact h
  | tryWritePair allocator allocator' first second =>
    dsimp only [ArenaRun.call]
    split
    all_goals
      rename_i hwrite
      rcases tryWritePair_cases first.2 second.2 hwrite with
        ⟨_, _, _, hok, hfirst, hsecond⟩ | ⟨⟨_, herror⟩, hcontents, -⟩
    · cases hok
      exact (h.append hfirst).append hsecond
    · cases herror
    · cases hok
    · refine ⟨?_, h.apart⟩
      rw [hcontents]
      exact h.holds

end ArenaRun

inductive ArenaMode
  | fixed (pageSize : Nat)
  | geometric (initialPageSize maxPageSize : Nat)

def ArenaMode.arena : ArenaMode → BlockArena
  | .fixed pageSize => .new pageSize
  | .geometric initialPageSize maxPageSize => .newGeometric initialPageSize maxPageSize

def ArenaRun.after (mode : ArenaMode) (calls : List ArenaCall) : ArenaRun :=
  calls.foldl ArenaRun.call ⟨mode.arena, []⟩

theorem ArenaRun.sound_after (mode : ArenaMode) (calls : List ArenaCall) :
    (after mode calls).Sound :=
  foldlRecOn calls _ ⟨nofun, .nil⟩ fun _ h call _ => h.call call

theorem arena_references_stay_valid (mode : ArenaMode) (calls : List ArenaCall) :
    let run := ArenaRun.after mode calls
    (∀ e ∈ run.log, run.arena.slice e.1 = .ok e.2) ∧
      run.log.Pairwise (fun e e' => Apart e.1 e'.1) ∧
      (∀ allocator allocator' (first second : Data) error undone,
        run.arena.tryWritePair allocator allocator' first.1 second.1 = (.error error, undone) →
        undone.pages.length = run.arena.pages.length ∧
          undone.contents = run.arena.contents ∧ undone.pageSize = run.arena.pageSize) ∧
      ∀ allocator, ((∀ i what, allocator i what = none) → run.arena.pages.length ≤ 2 ^ 32 →
          (run.arena.contents.map length).sum < 2 ^ 64 →
          ∃ frozen, run.arena.tryFreeze allocator = .ok frozen) ∧
        ∀ frozen, run.arena.tryFreeze allocator = .ok frozen →
          frozen.pages = run.arena.contents ∧ ∀ e ∈ run.log, frozen.slice e.1 = .ok e.2 := by
  intro run
  have hsound : run.Sound := ArenaRun.sound_after mode calls
  refine ⟨fun e he => (hsound.holds e he).sliceOf _, hsound.apart, ?_,
    fun allocator => ⟨tryFreeze_ok, ?_⟩⟩
  · intro allocator allocator' first second error undone hpair
    rcases tryWritePair_cases first.2 second.2 hpair with ⟨_, _, _, hok, -⟩ | ⟨-, hsame⟩
    · cases hok
    have hcount := congrArg length hsame.1
    rw [contents, contents, length_map, length_map] at hcount
    exact ⟨hcount, hsame⟩
  · intro frozen hfreeze
    obtain ⟨usedBytes, rfl⟩ := tryFreeze_pages hfreeze
    exact ⟨rfl, fun e he => (hsound.holds e he).sliceOf _⟩

end Chronoxide.Arena
