import VeronaFs.Foundation.Fitting
import VeronaFs.Foundation.Pages
import VeronaFs.Namespace.Permission

/-!
# Listings of a directory

A client lists a directory with several `readdir` calls, each of which goes on from the offset of the
last entry it received, and any other steps of the file system come in between.  The offset is the number
of entries to skip, so it means what it meant before as long as as many entries are up to the last one
received as were received (`Listing.Steady`); then every entry that stays is returned exactly once
(`readdir_exactlyOnce`).
-/

namespace VeronaFs

open Boc Foundation

/-! ## What a call returns -/

/-- The entries of a directory as `readdir` returns them, with the offsets behind `off`. -/
def numbered : ℕ → List (Name × Dentry) → List Dirent
  | _, [] => []
  | off, e :: l => ⟨e.2.ino, off + 1, e.1⟩ :: numbered (off + 1) l

/-- The names of the entries that are returned. -/
@[simp] theorem numbered_names (off : ℕ) (l : List (Name × Dentry)) :
    (numbered off l).map Dirent.name = l.map Prod.fst := by
  induction l generalizing off with
  | nil => rfl
  | cons e l ih => rw [numbered, List.map_cons, List.map_cons, ih]

/-- The offsets that are returned are behind the first. -/
theorem lt_of_mem_numbered {off : ℕ} {l : List (Name × Dentry)} {d : Dirent}
    (h : d ∈ numbered off l) : off < d.off := by
  induction l generalizing off with
  | nil => cases h
  | cons e l ih =>
    rw [numbered, List.mem_cons] at h
    rcases h with rfl | h
    · exact Nat.lt_succ_self off
    · exact (Nat.lt_succ_self off).trans (ih h)

/-- The offset of the last entry that is returned. -/
theorem numbered_getLast? (off : ℕ) (l : List (Name × Dentry)) (hl : l ≠ []) :
    (numbered off l).getLast?.map Dirent.off = some (off + l.length) := by
  induction l generalizing off with
  | nil => exact absurd rfl hl
  | cons e l ih =>
    rw [numbered, List.getLast?_cons, List.length_cons]
    cases l with
    | nil => rfl
    | cons e' l =>
      obtain ⟨d, hd, hoff⟩ := Option.map_eq_some_iff.mp (ih (off + 1) (List.cons_ne_nil e' l))
      rw [hd, Option.map_some, Option.getD_some, hoff]
      congr 1
      omega

/-- The loop returns the entries behind the offset that fit. -/
theorem FsState.readdirLoop_eq (bufsize target : ℕ) (l : List (Name × Dentry)) (count : ℕ)
    (entries : List Dirent) (pos off : ℕ) :
    readdirLoop bufsize target l count entries pos off =
      entries ++ numbered off
        (fitting (fun e => direntSize e.1) (bufsize - pos) (l.drop (target - count))) := by
  induction l generalizing count entries pos off with
  | nil => simp [readdirLoop, fitting, numbered]
  | cons e l ih =>
    rw [readdirLoop]
    by_cases hcount : target ≤ count
    · have hskip : target - count = 0 := Nat.sub_eq_zero_of_le hcount
      have hskip' : target - (count + 1) = 0 := by omega
      rw [if_pos hcount, hskip, List.drop_zero, fitting]
      by_cases hfull : direntSize e.1 > bufsize - pos
      · rw [if_pos hfull, if_neg (by omega), numbered, List.append_nil]
      · rw [if_neg hfull, if_pos (by omega), ih, hskip', List.drop_zero, Nat.sub_sub, numbered,
          List.append_assoc, List.singleton_append]
    · have hskip : target - count = target - (count + 1) + 1 := by omega
      rw [if_neg hcount, ih, hskip, List.drop_succ_cons]

/-- What the dispatcher does with a call: it replies with `.` or nothing, or it schedules the behaviour
with `.` and `..` in front of the entries of the directory. -/
inductive ReaddirHandled (s : FsState) (r : ReaddirReq) : FsEffect → Prop
  /-- The buffer has no room for `.` and `..`. -/
  | full {entries : List Dirent} (hoff : cU64 r.off ≤ 1) (hle : ∀ d ∈ entries, d.off ≤ 1) :
      ReaddirHandled s r ⟨s, [], [.dir r.req entries]⟩
  /-- The behaviour is scheduled. -/
  | scheduled {entries : List Dirent} {pos : ℕ} (hle : ∀ d ∈ entries, d.off ≤ 2)
      (hlast : cU64 r.off ≤ 1 → entries.getLast?.map Dirent.off = some 2)
      (hnone : 2 ≤ cU64 r.off → entries = [] ∧ pos = 0) :
      ReaddirHandled s r ⟨s, [.readdir r entries pos (max (cU64 r.off) 2)], []⟩

/-- The dispatcher does one of these. -/
theorem readdirHandled {s : FsState} {r : ReaddirReq} {e : FsEffect}
    (h : s.handleReaddir r = .ok e) : ReaddirHandled s r e := by
  have hdot {name : Name} {entries entries' : List Dirent} {pos pos' off : ℕ}
      (hadd : FsState.addDot r name entries pos off = some (entries', pos')) :
      entries' = entries ++ [⟨1, off, name⟩] := by
    rw [FsState.addDot] at hadd
    split at hadd
    · cases hadd
    · exact (Prod.mk.inj (Option.some.inj hadd)).1.symm
  rw [FsState.handleReaddir] at h
  split at h
  · next hfirst =>
    obtain rfl := Except.ok.inj h
    have hoff : cU64 r.off = 0 := by
      by_contra hoff
      rw [if_neg hoff] at hfirst
      cases hfirst
    exact .full (by omega) (fun d hd => absurd hd List.not_mem_nil)
  next entries pos hfirst =>
  have hentries : ∀ d ∈ entries, d.off ≤ 1 := by
    intro d hd
    split at hfirst
    · obtain rfl := hdot hfirst
      rw [List.nil_append, List.mem_singleton] at hd
      rw [hd]
    · obtain ⟨rfl, -⟩ := Prod.mk.inj (Option.some.inj hfirst)
      exact absurd hd List.not_mem_nil
  split at h
  · next hsecond =>
    obtain rfl := Except.ok.inj h
    have hoff : cU64 r.off ≤ 1 := by
      by_contra hoff
      rw [if_neg hoff] at hsecond
      cases hsecond
    exact .full hoff hentries
  next entries' pos' hsecond =>
  obtain ⟨d, -, h⟩ := bind_eq_ok.mp h
  obtain rfl := Except.ok.inj h
  by_cases hoff : cU64 r.off ≤ 1
  · rw [if_pos hoff] at hsecond
    obtain rfl := hdot hsecond
    refine .scheduled (fun d hd => ?_) (fun _ => ?_) (fun htwo => absurd hoff (by omega))
    · rcases List.mem_append.mp hd with hd | hd
      · exact (hentries d hd).trans (by omega)
      · rw [List.mem_singleton.mp hd]
    · rw [List.getLast?_concat]
      rfl
  · rw [if_neg hoff] at hsecond
    rw [if_neg (by omega)] at hfirst
    obtain ⟨rfl, rfl⟩ := Prod.mk.inj (Option.some.inj hfirst)
    obtain ⟨rfl, rfl⟩ := Prod.mk.inj (Option.some.inj hsecond)
    exact .scheduled (fun d hd => absurd hd List.not_mem_nil) (fun hle => absurd hle hoff)
      (fun _ => ⟨rfl, rfl⟩)

/-! ## A listing -/

/-- What a client has received of a listing, and what was there all the time. -/
structure Listing where
  /-- The entries it received, in the order of the replies. -/
  received : List Dirent
  /-- The behaviour of the call that was not answered yet. -/
  asked : Option FsTask
  /-- The names that had an entry in every state since the beginning. -/
  alive : Set Name
  /-- A call with room for an entry returned none. -/
  done : Bool

/-- The entries in a reply to `readdir`. -/
def Reply.listed : Reply → List Dirent
  | .dir _ entries => entries
  | _ => []

namespace Listing

variable (l : Listing)

/-- The offset from which the client goes on: that of the last entry it received. -/
def offset : ℕ := (l.received.getLast?.map Dirent.off).getD 0

/-- The entries of the directory that were received: those behind `.` and `..`. -/
def own : List Dirent := l.received.filter fun d => 2 < d.off

/-- The names of these. -/
def names : List Name := l.own.map Dirent.name

/-- As many entries of the directory are up to the last one received as were received. -/
def Steady (d : DirInode) : Prop :=
  (Pages.front l.names.getLast? (d.dentries.toList.map Prod.fst)).length = l.names.length

/-- The client received what is in the replies. -/
def receive (replies : List Reply) : Listing :=
  { l with received := l.received ++ replies.flatMap Reply.listed }

end Listing

/-- The names of the entries of a directory. -/
def FsState.namesIn (s : FsState) (dir : ℕ) : Set Name :=
  {name | ∃ d, s.dirs[dir]? = some d ∧ name ∈ d.dentries.toList.map Prod.fst}

/-- The runs of the file system from `c₀` on in which a client lists the directory `dir`.  `P` holds of
the listing and the directory whenever the behaviour of a call runs. -/
inductive Lists (P : Listing → DirInode → Prop) (dir : ℕ) (c₀ : FsConfig) : Listing → FsConfig → Prop
  /-- Nothing was received. -/
  | start : Lists P dir c₀ ⟨[], none, c₀.state.namesIn dir, false⟩ c₀
  /-- Any step of other requests. -/
  | other {l : Listing} {c c' : FsConfig} {label : Label FsRequest FsTask} (h : Lists P dir c₀ l c)
      (hlabel : ∀ t, l.asked = some t → label ≠ .run t) (hstep : server.Step c label c') :
      Lists P dir c₀ { l with alive := l.alive ∩ c'.state.namesIn dir } c'
  /-- The client calls `readdir` with the offset of the last entry it received. -/
  | call {l : Listing} {c : FsConfig} {r : ReaddirReq} {e : FsEffect} (h : Lists P dir c₀ l c)
      (hasked : l.asked = none) (hdone : l.done = false) (hparent : r.parent = dir)
      (hoff : r.off = l.offset) (hoffT : r.off < 2 ^ 63)
      (hhandles : server.Handles (.readdir r) c.state e) :
      Lists P dir c₀ { l.receive e.replies with asked := e.spawned.head? }
        ⟨e.state, c.pending ++ e.spawned, c.replies ++ e.replies⟩
  /-- The behaviour of the call runs, in a buffer with room for the next entry. -/
  | page {l : Listing} {s : FsState} {pre post : List FsTask} {rs : List Reply} {r : ReaddirReq}
      {entries : List Dirent} {pos off : ℕ} {e : FsEffect} {d : DirInode}
      (h : Lists P dir c₀ l ⟨s, pre ++ .readdir r entries pos off :: post, rs⟩)
      (hasked : l.asked = some (.readdir r entries pos off))
      (hfree : server.FreeOf pre (.readdir r entries pos off))
      (hruns : server.Runs (.readdir r entries pos off) s e)
      (hd : s.dirs[dir]? = some d) (hP : P l d)
      (hroom : entries = [] → ∀ next ∈ (d.dentries.toList.drop (off - 2)).head?,
        FsState.direntSize next.1 ≤ r.bufsize) :
      Lists P dir c₀
        { l.receive e.replies with
          asked := none
          done := (e.replies.flatMap Reply.listed).isEmpty }
        ⟨e.state, pre ++ post ++ e.spawned, rs ++ e.replies⟩

/-! ## Nothing is skipped or returned twice -/

namespace Listing

variable {dir : ℕ} {l : Listing} {s s' : FsState} {replies : List Reply}

/-- The names after a reply. -/
theorem names_receive (l : Listing) (replies : List Reply) : (l.receive replies).names =
    l.names ++ ((replies.flatMap Reply.listed).filter fun d => 2 < d.off).map Dirent.name := by
  rw [names, own, receive, List.filter_append, List.map_append]
  rfl

/-- The offset after a reply. -/
theorem offset_receive (l : Listing) (replies : List Reply) : (l.receive replies).offset =
    ((replies.flatMap Reply.listed).getLast?.map Dirent.off).getD l.offset := by
  rw [offset, receive, List.getLast?_append]
  cases (replies.flatMap Reply.listed).getLast? with
  | none => rfl
  | some d => rfl

/-- A call is on its way: it is the behaviour that goes on behind the names received. -/
structure Asks (received : List Name) (dir : ℕ) (r : ReaddirReq) (entries : List Dirent) (pos off : ℕ) : Prop where
  /-- It lists the directory. -/
  parent_eq : r.parent = dir
  /-- It skips what was received. -/
  off_eq : off = received.length + 2
  /-- It has `.` or `..` in front. -/
  le_two : ∀ d ∈ entries, d.off ≤ 2
  /-- Then nothing of the directory was received, and it ends with `..`. -/
  dots : entries = [] ∧ pos = 0 ∨ entries.getLast?.map Dirent.off = some 2 ∧ received = []

/-- What holds of a listing at any time. -/
structure Invariant (dir : ℕ) (l : Listing) (s : FsState) : Prop where
  /-- The entries received are in order and leave none out. -/
  covers : Pages.Covers l.alive l.names
  /-- The entries that were there all the time are there. -/
  present : l.alive ⊆ s.namesIn dir
  /-- The offset counts the entries received, with `.` and `..`. -/
  offset_eq : l.offset ≤ 2 ∧ l.names = [] ∨ l.offset = l.names.length + 2
  /-- The call on its way. -/
  asks : ∀ t, l.asked = some t → ∃ r entries pos off, t = .readdir r entries pos off ∧
    Asks l.names dir r entries pos off
  /-- A listing that is over has everything. -/
  all_mem : l.done = true → ∀ name ∈ l.alive, name ∈ l.names

/-- A call was handled. -/
theorem Invariant.call {r : ReaddirReq} {e : FsEffect} (h : l.Invariant dir s) (hdone : l.done = false)
    (hparent : r.parent = dir) (hoff : r.off = l.offset) (hoffT : r.off < 2 ^ 63)
    (he : s.handleReaddir r = .ok e) :
    Invariant dir { l.receive e.replies with asked := e.spawned.head? } e.state := by
  have hcast : cU64 r.off = l.offset := by
    rw [cU64_of_lt (by omega) (by omega), hoff, Int.toNat_natCast]
  cases readdirHandled he with
  | @full entries hle hentries =>
    rw [hcast] at hle
    have hnames : l.names = [] := by
      rcases h.offset_eq with ⟨-, hnames⟩ | hoffset
      · exact hnames
      · omega
    have hfilter : entries.filter (fun d => 2 < d.off) = [] := by
      refine List.filter_eq_nil_iff.mpr fun d hd => ?_
      have := hentries d hd
      simp only [decide_eq_true_eq]
      omega
    have hsame : (l.receive [.dir r.req entries]).names = l.names := by
      rw [names_receive]
      simp [Reply.listed, hfilter]
    refine ⟨?_, h.present, Or.inl ⟨?_, hsame.trans hnames⟩, fun t ht => ?_, fun hd => ?_⟩
    · change Pages.Covers l.alive (l.receive [.dir r.req entries]).names
      rw [hsame]
      exact h.covers
    · change (l.receive [.dir r.req entries]).offset ≤ 2
      rw [offset_receive]
      cases hlast : entries.getLast? with
      | none =>
        simp [Reply.listed, hlast]
        omega
      | some d =>
        have := hentries d (List.mem_of_getLast? hlast)
        simp [Reply.listed, hlast]
        omega
    · cases ht
    · rw [show l.done = true from hd] at hdone
      cases hdone
  | @scheduled entries pos hle hlast hnone =>
    have hsame : (l.receive []).names = l.names := by simp [names_receive]
    have hreceive : l.receive [] = l := by simp [receive]
    rw [hcast] at hlast hnone ⊢
    refine ⟨?_, h.present, ?_, fun t ht => ?_, fun hd => ?_⟩
    · change Pages.Covers l.alive (l.receive []).names
      rw [hreceive]
      exact h.covers
    · change (l.receive []).offset ≤ 2 ∧ (l.receive []).names = [] ∨
        (l.receive []).offset = (l.receive []).names.length + 2
      rw [hreceive]
      exact h.offset_eq
    · obtain rfl := Option.some.inj ht
      refine ⟨r, entries, pos, _, rfl, hparent, ?_, hle, ?_⟩
      · change max l.offset 2 = (l.receive []).names.length + 2
        rw [hsame]
        rcases h.offset_eq with ⟨hle, hnames⟩ | hoffset
        · rw [hnames, List.length_nil, max_eq_right hle]
        · omega
      · change _ ∨ _ ∧ (l.receive []).names = []
        rw [hsame]
        by_cases hdots : l.offset ≤ 1
        · refine Or.inr ⟨hlast hdots, ?_⟩
          rcases h.offset_eq with ⟨-, hnames⟩ | hoffset
          · exact hnames
          · omega
        · exact Or.inl (hnone (by omega))
    · rw [show l.done = true from hd] at hdone
      cases hdone

/-- The names of a directory are in order. -/
theorem ordered_names (d : DirInode) : Pages.Ordered (d.dentries.toList.map Prod.fst) :=
  List.pairwise_map.mpr d.dentries.ordered_keys_toList

/-- What a call returns is received. -/
theorem Invariant.page {r : ReaddirReq} {entries : List Dirent} {pos off : ℕ} {e : FsEffect}
    {d : DirInode} (h : l.Invariant dir s) (hasks : Asks l.names dir r entries pos off)
    (he : s.readdir r entries pos off = .ok e) (hd : s.dirs[dir]? = some d) (hsteady : l.Steady d)
    (hroom : entries = [] → ∀ next ∈ (d.dentries.toList.drop (off - 2)).head?,
      FsState.direntSize next.1 ≤ r.bufsize) :
    Invariant dir
      { l.receive e.replies with
        asked := none
        done := (e.replies.flatMap Reply.listed).isEmpty } e.state := by
  obtain ⟨d', hd', he⟩ := bind_eq_ok.mp he
  rw [FsState.getDir_eq_ok, hasks.parent_eq] at hd'
  obtain rfl := Option.some.inj (hd.symm.trans hd')
  obtain rfl := Except.ok.inj he
  have htwo : off - 2 = l.names.length := by
    rw [hasks.off_eq, Nat.add_sub_cancel]
  rw [FsState.readdirLoop_eq, Nat.sub_zero, htwo]
  rw [htwo] at hroom
  set rest := d.dentries.toList.drop l.names.length with hrest
  set new := fitting (fun e => FsState.direntSize e.1) (r.bufsize - pos) rest with hnew
  have hprefix : new <+: rest := (longestRun_fitting _ _ rest).isPrefix
  have hlisted : [Reply.dir r.req (entries ++ numbered off new)].flatMap Reply.listed =
      entries ++ numbered off new := List.append_nil _
  have hnames : (l.receive [Reply.dir r.req (entries ++ numbered off new)]).names =
      l.names ++ new.map Prod.fst := by
    have hdots : entries.filter (fun d => 2 < d.off) = [] :=
      List.filter_eq_nil_iff.mpr fun d hd => by simpa using hasks.le_two d hd
    have hown : (numbered off new).filter (fun d => 2 < d.off) = numbered off new := by
      refine List.filter_eq_self.mpr fun d hd => ?_
      have hlt := lt_of_mem_numbered hd
      have hoff := hasks.off_eq
      simp only [decide_eq_true_eq]
      omega
    rw [names_receive, hlisted, List.filter_append, hdots, hown, List.nil_append, numbered_names]
  have hkeys := ordered_names d
  have halive : ∀ name ∈ l.alive, name ∈ d.dentries.toList.map Prod.fst := by
    intro name hname
    obtain ⟨d', hd', hmem⟩ := h.present hname
    obtain rfl := Option.some.inj (hd.symm.trans hd')
    exact hmem
  have hdrop : (d.dentries.toList.map Prod.fst).drop l.names.length = rest.map Prod.fst :=
    List.map_drop.symm
  refine ⟨?_, h.present, ?_, fun t ht => ?_, fun hdone => ?_⟩
  · change Pages.Covers l.alive (l.receive [Reply.dir r.req (entries ++ numbered off new)]).names
    rw [hnames]
    refine h.covers.page hkeys halive hsteady ?_
    rw [hdrop]
    exact hprefix.map Prod.fst
  · change (l.receive [Reply.dir r.req (entries ++ numbered off new)]).offset ≤ 2 ∧
      (l.receive [Reply.dir r.req (entries ++ numbered off new)]).names = [] ∨
      (l.receive [Reply.dir r.req (entries ++ numbered off new)]).offset =
        (l.receive [Reply.dir r.req (entries ++ numbered off new)]).names.length + 2
    rw [hnames, offset_receive, hlisted]
    rcases eq_or_ne new [] with hnil | hne
    · rw [hnil]
      simp only [numbered, List.append_nil, List.map_nil]
      rcases hasks.dots with ⟨rfl, -⟩ | ⟨hlast, hnone⟩
      · exact h.offset_eq
      · rw [hlast, hnone]
        exact Or.inl ⟨le_rfl, rfl⟩
    · right
      have hlast := numbered_getLast? off new hne
      rw [List.getLast?_append]
      obtain ⟨d', hd', hoff⟩ := Option.map_eq_some_iff.mp hlast
      rw [hd', Option.some_or, Option.map_some, Option.getD_some, hoff, hasks.off_eq, List.length_append,
        List.length_map]
      omega
  · cases ht
  · change ([Reply.dir r.req (entries ++ numbered off new)].flatMap Reply.listed).isEmpty = true at hdone
    rw [hlisted, List.isEmpty_iff, List.append_eq_nil_iff] at hdone
    obtain ⟨hentries, hnumbered⟩ := hdone
    have hnil : new = [] := by
      have := congrArg (List.map Dirent.name) hnumbered
      rw [numbered_names] at this
      exact List.map_eq_nil_iff.mp this
    have hnone : rest = [] := by
      have hpos : pos = 0 := by
        rcases hasks.dots with ⟨-, hpos⟩ | ⟨hlast, -⟩
        · exact hpos
        · rw [hentries] at hlast
          cases hlast
      cases hcons : rest with
      | nil => rfl
      | cons next tail =>
        have hfits := hroom hentries next (by rw [hcons]; rfl)
        rw [hcons, hpos, fitting, if_pos (by simpa using hfits)] at hnew
        exact absurd (hnew.symm.trans hnil) (List.cons_ne_nil _ _)
    intro name hname
    change name ∈ (l.receive [Reply.dir r.req (entries ++ numbered off new)]).names
    rw [hnames]
    refine List.mem_append_left _ (h.covers.all_mem hkeys halive hsteady ?_ name hname)
    rw [hdrop, hnone, List.map_nil]

end Listing

variable {dir : ℕ} {c₀ c : FsConfig} {l : Listing}

/-- The invariant holds at any time of a listing. -/
theorem Lists.invariant (h : Lists Listing.Steady dir c₀ l c) : l.Invariant dir c.state := by
  induction h with
  | start =>
    refine ⟨.nil, subset_rfl, Or.inl ⟨Nat.zero_le 2, rfl⟩, fun t ht => ?_, fun hdone => ?_⟩
    · cases ht
    · cases hdone
  | other h hlabel hstep ih =>
    refine ⟨ih.covers.mono Set.inter_subset_left, Set.inter_subset_right, ih.offset_eq, ih.asks, ?_⟩
    exact fun hdone name hname => ih.all_mem hdone name hname.1
  | call h hasked hdone hparent hoff hoffT hhandles ih =>
    exact ih.call hdone hparent hoff hoffT hhandles.handle_eq
  | page h hasked hfree hruns hd hP hroom ih =>
    obtain ⟨r', entries', pos', off', heq, hasks⟩ := ih.asks _ hasked
    obtain ⟨rfl, rfl, rfl, rfl⟩ := FsTask.readdir.inj heq
    exact ih.page hasks hruns.body_eq hd hP hroom

/-- A client that lists a directory receives no name twice, and when a call with room for an entry
returns none, it has received every entry that was there all the time exactly once: if as many entries
are up to the last one received as were received whenever the behaviour of a call runs. -/
theorem readdir_exactlyOnce (h : Lists Listing.Steady dir c₀ l c) :
    l.names.Nodup ∧ (l.done = true → ∀ name ∈ l.alive, l.names.count name = 1) := by
  have hinv := h.invariant
  refine ⟨hinv.covers.ordered.nodup, fun hdone name hname => ?_⟩
  exact List.count_eq_one_of_mem hinv.covers.ordered.nodup (hinv.all_mem hdone name hname)

/-! ## A listing of a directory with one entry -/

/-- A behaviour on one cown names distinct cowns. -/
theorem readdir_nodup (r : ReaddirReq) (entries : List Dirent) (pos off : ℕ) :
    ∀ t ∈ [FsTask.readdir r entries pos off], (server.cowns t).Nodup := by
  intro t ht
  obtain rfl := List.mem_singleton.mp ht
  exact List.nodup_singleton _

/-- The behaviour of a call runs when nothing else is pending. -/
theorem Lists.page_alone {P : Listing → DirInode → Prop} {s : FsState} {rs : List Reply} {r : ReaddirReq}
    {entries : List Dirent} {pos off : ℕ} {rep : Reply} {d : DirInode}
    (h : Lists P dir c₀ l ⟨s, [.readdir r entries pos off], rs⟩)
    (hasked : l.asked = some (.readdir r entries pos off))
    (hbody : s.readdir r entries pos off = .ok ⟨s, [], [rep]⟩) (hd : s.dirs[dir]? = some d) (hP : P l d)
    (hroom : entries = [] → ∀ next ∈ (d.dentries.toList.drop (off - 2)).head?,
      FsState.direntSize next.1 ≤ r.bufsize) :
    Lists P dir c₀
      ⟨l.received ++ rep.listed, none, l.alive, rep.listed.isEmpty⟩ ⟨s, [], rs ++ [rep]⟩ := by
  have h' : Lists P dir c₀ l ⟨s, [] ++ FsTask.readdir r entries pos off :: [], rs⟩ := h
  have hpage := h'.page hasked (fun _ ht => absurd ht List.not_mem_nil) ⟨hbody, by simp⟩ hd hP hroom
  simpa [Listing.receive] using hpage

/-- A call of a listing of the root directory, with room for three entries. -/
def listFrom (off : ℕ) : ReaddirReq := ⟨10 + off, 1, 96, off⟩

/-- The entries `.` and `..`. -/
def dots : List Dirent := [⟨1, 1, FsState.dotName 1⟩, ⟨1, 2, FsState.dotName 2⟩]

/-- The entry of `a` as the first call returns it. -/
def direntA : Dirent := ⟨2, 3, [97]⟩

/-- The first call returns the entry `a`. -/
theorem lists_a {P : Listing → DirInode → Prop}
    (hP : P ⟨[], some (.readdir (listFrom 0) dots 64 2), fsA.namesIn 1, false⟩ rootDirA) :
    Lists P 1 ⟨fsA, [], []⟩ ⟨dots ++ [direntA], none, fsA.namesIn 1, false⟩
      ⟨fsA, [], [.dir 10 (dots ++ [direntA])]⟩ := by
  have hhandles : server.Handles (.readdir (listFrom 0)) fsA
      ⟨fsA, [.readdir (listFrom 0) dots 64 2], []⟩ := ⟨rfl, readdir_nodup _ _ _ _⟩
  have hstart : Lists P 1 ⟨fsA, [], []⟩ ⟨[], none, fsA.namesIn 1, false⟩ ⟨fsA, [], []⟩ := .start
  have hcall : Lists P 1 ⟨fsA, [], []⟩
      ⟨[], some (.readdir (listFrom 0) dots 64 2), fsA.namesIn 1, false⟩
      ⟨fsA, [.readdir (listFrom 0) dots 64 2], []⟩ :=
    hstart.call (r := listFrom 0) rfl rfl rfl rfl (by decide) hhandles
  exact hcall.page_alone rfl rfl fsA_dirs.1 hP (fun hnil => by cases hnil)

/-- A call that goes on behind some entries. -/
theorem Lists.goesOn {P : Listing → DirInode → Prop} {s : FsState} {rs : List Reply} (off : ℕ)
    {d : DirInode} {rep : Reply} (h : Lists P 1 c₀ l ⟨s, [], rs⟩) (hasked : l.asked = none)
    (hdone : l.done = false) (hoff : (off : ℤ) = l.offset) (htwo : 2 ≤ off) (hoffT : off < 2 ^ 63)
    (hd : s.dirs[1]? = some d) (hbody : s.readdir (listFrom off) [] 0 off = .ok ⟨s, [], [rep]⟩)
    (hP : P { l with asked := some (.readdir (listFrom off) [] 0 off) } d)
    (hroom : ∀ next ∈ (d.dentries.toList.drop (off - 2)).head?, FsState.direntSize next.1 ≤ 96) :
    Lists P 1 c₀ ⟨l.received ++ rep.listed, none, l.alive, rep.listed.isEmpty⟩
      ⟨s, [], rs ++ [rep]⟩ := by
  have hhandle : s.handleReaddir (listFrom off) = .ok ⟨s, [.readdir (listFrom off) [] 0 off], []⟩ := by
    have hcast : cU64 (listFrom off).off = off := by
      change cU64 (off : ℤ) = off
      rw [cU64_of_lt (by omega) (by omega), Int.toNat_natCast]
    have hzero : ¬ off = 0 := by omega
    have hone : ¬ off ≤ 1 := by omega
    simp only [FsState.handleReaddir, hcast, if_neg hzero, if_neg hone, max_eq_left htwo]
    change (s.getDir 1 >>= _) = _
    rw [FsState.getDir_of_some hd]
    rfl
  have hcall := h.call hasked hdone (r := listFrom off) rfl hoff (by change (off : ℤ) < _; omega)
    ⟨hhandle, readdir_nodup _ _ _ _⟩
  have hcall' : Lists P 1 c₀ { l with asked := some (.readdir (listFrom off) [] 0 off) }
      ⟨s, [.readdir (listFrom off) [] 0 off], rs⟩ := by
    simpa [Listing.receive] using hcall
  exact hcall'.page_alone rfl hbody hd hP (fun _ => hroom)

/-- The listing of a directory with one entry that is left alone. -/
theorem readdir_exactlyOnce_a : ∃ l c, Lists Listing.Steady 1 ⟨fsA, [], []⟩ l c ∧ l.done = true ∧
    ([97] : Name) ∈ l.alive ∧ l.names.Nodup ∧ l.names.count [97] = 1 := by
  have ha : ([97] : Name) ∈ fsA.namesIn 1 := ⟨rootDirA, fsA_dirs.1, by decide⟩
  have hfirst := lists_a (P := Listing.Steady) rfl
  have hdone := hfirst.goesOn 3 rfl rfl rfl (by omega) (by omega) fsA_dirs.1 rfl rfl
    (fun next hnext => by cases hnext)
  have honce := readdir_exactlyOnce hdone
  exact ⟨_, _, hdone, rfl, ha, honce.1, honce.2 rfl [97] ha⟩

/-- Root creates the file `A`, which is in front of `a`. -/
def createA : MakeReq :=
  { mkdirA with req := 11, name := [65], mode := 0o644, addr := 8, this := 9, node := 10 }

/-- The root directory after that. -/
def rootDirAa : DirInode := (rootDirA.insert [65] ⟨9, 10⟩).touch 0

/-- The file system after the behaviour of `createA`. -/
def fsAa₀ : FsState := (fsA.setReg 9 createA.newReg).setDir 1 rootDirAa

/-- The file system after `createA`. -/
def fsAa : FsState := fsA.created createA rootDirA

/-- The reply to `createA`. -/
def replyCreateA : Reply := .create 11 (MakeReq.entryParam createA.regStat) createA.createInfo

/-- A file is created in front of the entry that was returned: it is returned again. -/
theorem readdir_twice : (∃ h, server.Serial (fun _ _ => True) rootFs h fsA) ∧
    ∃ l c, Lists (fun _ _ => True) 1 ⟨fsA, [], []⟩ l c ∧ l.done = true ∧
      ([97] : Name) ∈ l.alive ∧ l.names.count [97] = 2 := by
  refine ⟨⟨_, .snoc .nil trivial serves_mkdirA⟩, ?_⟩
  let listed : Reply := .dir 10 (dots ++ [direntA])
  have hhandles : server.Handles (.create createA) fsA ⟨fsA, [.create createA], []⟩ :=
    ⟨rfl, by decide⟩
  have hrequest : server.Step ⟨fsA, [], [listed]⟩ (.request (.create createA))
      ⟨fsA, [.create createA], [listed]⟩ := .request hhandles
  have hruns : server.Runs (.create createA) fsA
      ⟨fsAa₀, [.addReg 9 createA.regStat], [replyCreateA]⟩ := ⟨rfl, by decide⟩
  have hcreate : server.Step ⟨fsA, [.create createA], [listed]⟩ (.run (.create createA))
      ⟨fsAa₀, [.addReg 9 createA.regStat], [listed, replyCreateA]⟩ := .head hruns
  have hruns' : server.Runs (.addReg 9 createA.regStat) fsAa₀ ⟨fsAa, [], []⟩ := ⟨rfl, by decide⟩
  have hadd : server.Step ⟨fsAa₀, [.addReg 9 createA.regStat], [listed, replyCreateA]⟩
      (.run (.addReg 9 createA.regStat)) ⟨fsAa, [], [listed, replyCreateA]⟩ := .head hruns'
  have hfirst : Lists (fun _ _ => True) 1 ⟨fsA, [], []⟩ ⟨dots ++ [direntA], none, fsA.namesIn 1, false⟩
      ⟨fsA, [], [listed]⟩ := lists_a trivial
  have hnone : ∀ (t : FsTask) (label : Label FsRequest FsTask), none = some t → label ≠ .run t := by
    intro t label ht
    cases ht
  have hcreated := ((hfirst.other (fun t => hnone t _) hrequest).other (fun t => hnone t _)
    hcreate).other (fun t => hnone t _) hadd
  have hagain := hcreated.goesOn 3 rfl rfl rfl (by omega) (by omega) (d := rootDirAa) rfl rfl trivial
    (by decide)
  have hdone := hagain.goesOn 4 rfl rfl rfl (by omega) (by omega) (d := rootDirAa) rfl rfl trivial
    (by decide)
  have hA : ([97] : Name) ∈ fsA.namesIn 1 := ⟨rootDirA, fsA_dirs.1, by decide⟩
  have hAa : ([97] : Name) ∈ rootDirAa.dentries.toList.map Prod.fst := by decide
  refine ⟨_, _, hdone, rfl, ⟨⟨⟨hA, hA⟩, ?_⟩, ?_⟩, by decide⟩
  · exact ⟨rootDirAa, rfl, hAa⟩
  · exact ⟨rootDirAa, rfl, hAa⟩

end VeronaFs
