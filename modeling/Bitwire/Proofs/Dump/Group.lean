import Bitwire.Dump

/-!
# Where the groups of a text are

The groups of a text are its maximal runs of characters other than the space. They are found from the end
of the text to its beginning, one character at a time, while positions count bytes from the beginning; so
both are tied together here. A text is gone through by its runs: it is empty, or begins with a space, or
with a maximal run.

* `ByRuns`, `byRuns`: every text is put together by runs.
* `groups_run_append`, `groups_append`: the groups of a text, run by run.
* `IsRun`: a maximal run of a text; `IsRun.groups_eq`, `exists_isRun`: groups are runs.
-/

namespace Bitwire

/-! ## Offsets -/

theorem utf8Length_append (xs ys : List Char) :
    utf8Length (xs ++ ys) = utf8Length xs + utf8Length ys := by
  induction xs with
  | nil => exact (Nat.zero_add _).symm
  | cons c cs ih => rw [List.cons_append, utf8Length, utf8Length, ih, Nat.add_assoc]

/-- The bytes of a text are those of its encoding. -/
theorem utf8ByteSize_ofList (cs : List Char) : (String.ofList cs).utf8ByteSize = utf8Length cs := by
  induction cs with
  | nil => rfl
  | cons c cs ih =>
    rw [String.ofList_cons, String.utf8ByteSize_append, String.utf8ByteSize_singleton, ih]
    rfl

theorem utf8Length_toList (s : String) : utf8Length s.toList = s.utf8ByteSize := by
  rw [← utf8ByteSize_ofList, String.ofList_toList]

theorem utf8Length_pos {cs : List Char} (h : cs ≠ []) : 0 < utf8Length cs := by
  obtain ⟨c, cs, rfl⟩ := List.exists_cons_of_ne_nil h
  exact Nat.add_pos_left c.utf8Size_pos _

/-! ## Texts by their runs -/

/-- The text is empty or begins with a space, so that no run goes on into it. -/
def StartsFresh (text : List Char) : Prop := ∀ c ∈ text.head?, c = ' '

/-- The text is empty or ends with a space. -/
def EndsFresh (text : List Char) : Prop := ∀ c ∈ text.getLast?, c = ' '

theorem startsFresh_nil : StartsFresh [] := nofun

theorem startsFresh_space (cs : List Char) : StartsFresh (' ' :: cs) :=
  fun _ hc => (Option.mem_some.1 hc).symm

theorem startsFresh_append {xs : List Char} (h0 : xs ≠ []) (ys : List Char) :
    StartsFresh (xs ++ ys) ↔ StartsFresh xs := by
  obtain ⟨x, xs, rfl⟩ := List.exists_cons_of_ne_nil h0
  exact Iff.rfl

theorem endsFresh_append (xs : List Char) {ys : List Char} (h0 : ys ≠ []) :
    EndsFresh (xs ++ ys) ↔ EndsFresh ys := by
  rw [EndsFresh, EndsFresh, List.getLast?_append, List.getLast?_eq_some_getLast h0, Option.some_or]

theorem EndsFresh.of_append {xs ys : List Char} (h : EndsFresh (xs ++ ys)) : EndsFresh ys := by
  by_cases h0 : ys = []
  · rw [h0]
    exact nofun
  · exact (endsFresh_append xs h0).1 h

/-- A run that goes up to the end of a text does not end with a space. -/
theorem not_endsFresh {run : List Char} (h0 : run ≠ []) (hrun : ∀ c ∈ run, c ≠ ' ') :
    ¬ EndsFresh run := by
  intro h
  have hlast : run.getLast h0 ∈ run.getLast? := List.getLast?_eq_some_getLast h0
  exact hrun _ (List.getLast_mem h0) (h _ hlast)

/-- A text as it is gone through by its runs. -/
inductive ByRuns : List Char → Prop
  | nil : ByRuns []
  | space {cs : List Char} : ByRuns cs → ByRuns (' ' :: cs)
  | run {run rest : List Char} : run ≠ [] → (∀ c ∈ run, c ≠ ' ') → StartsFresh rest →
      ByRuns rest → ByRuns (run ++ rest)

theorem byRuns (text : List Char) : ByRuns text := by
  induction text with
  | nil => exact .nil
  | cons c cs ih =>
    by_cases hc : c = ' '
    · rw [hc]
      exact .space ih
    · -- the character is a run of its own, or goes before the run behind it
      have hsingle : ∀ d ∈ [c], d ≠ ' ' := fun d hd => List.mem_singleton.1 hd ▸ hc
      cases ih with
      | nil => exact .run (List.cons_ne_nil c []) hsingle startsFresh_nil .nil
      | space hcs =>
        exact .run (List.cons_ne_nil c []) hsingle (startsFresh_space _) (.space hcs)
      | @run run rest h0 hrun hrest hcs =>
        have hrun' : ∀ d ∈ c :: run, d ≠ ' ' := fun d hd => (List.mem_cons.1 hd).elim (· ▸ hc) (hrun d)
        exact .run (List.cons_ne_nil c run) hrun' hrest hcs

/-! ## Groups -/

theorem groups_space (pos : Nat) (cs : List Char) : groups pos (' ' :: cs) = groups (pos + 1) cs :=
  rfl

theorem groups_cons (pos : Nat) {c : Char} (hc : c ≠ ' ') (cs : List Char) :
    groups pos (c :: cs) = Group.extend pos c (groups (pos + c.utf8Size) cs) :=
  if_neg hc

theorem Group.mem_extend {pos : Nat} {c : Char} {gs : List Group} {g : Group}
    (h : g ∈ Group.extend pos c gs) : g.start = pos ∨ g ∈ gs := by
  cases gs with
  | nil =>
    obtain rfl := List.mem_singleton.1 h
    exact .inl rfl
  | cons first gs =>
    simp only [extend] at h
    split at h
    · rcases List.mem_cons.1 h with rfl | h
      · exact .inl rfl
      · exact .inr (List.mem_cons_of_mem first h)
    · rcases List.mem_cons.1 h with rfl | h
      · exact .inl rfl
      · exact .inr h

/-- A group that starts further behind is not extended. -/
theorem Group.extend_of_lt {pos : Nat} {c : Char} {gs : List Group}
    (h : ∀ g ∈ gs, pos + c.utf8Size < g.start) : Group.extend pos c gs = ⟨pos, [c]⟩ :: gs := by
  cases gs with
  | nil => rfl
  | cons first gs => exact if_neg (Nat.ne_of_gt (h first List.mem_cons_self))

theorem start_of_mem_groups {pos : Nat} {text : List Char} {g : Group} (h : g ∈ groups pos text) :
    pos ≤ g.start := by
  induction text generalizing pos g with
  | nil => contradiction
  | cons c cs ih =>
    by_cases hc : c = ' '
    · subst hc
      exact Nat.le_of_succ_le (ih h)
    · rw [groups_cons pos hc] at h
      rcases Group.mem_extend h with h | h
      · exact Nat.le_of_eq h.symm
      · exact Nat.le_trans (Nat.le_add_right _ _) (ih h)

/-- A space keeps the groups behind it away. -/
theorem start_of_mem_groups_fresh {pos : Nat} {text : List Char} (h0 : StartsFresh text) {g : Group}
    (h : g ∈ groups pos text) : pos < g.start := by
  cases text with
  | nil => contradiction
  | cons c cs =>
    obtain rfl := h0 c rfl
    exact start_of_mem_groups h

/-- A maximal run is a group. -/
theorem groups_run_append (pos : Nat) {run rest : List Char} (h0 : run ≠ [])
    (hrun : ∀ c ∈ run, c ≠ ' ') (hrest : StartsFresh rest) :
    groups pos (run ++ rest) = ⟨pos, run⟩ :: groups (pos + utf8Length run) rest := by
  induction run generalizing pos with
  | nil => contradiction
  | cons c cs ih =>
    rw [List.cons_append, groups_cons pos (hrun c List.mem_cons_self), utf8Length, ← Nat.add_assoc]
    cases cs with
    | nil => exact Group.extend_of_lt fun g hg => start_of_mem_groups_fresh hrest hg
    | cons next cs =>
      rw [ih (pos + c.utf8Size) (List.cons_ne_nil next cs) fun d hd => hrun d (List.mem_cons_of_mem c hd)]
      exact if_pos rfl

/-- Behind a space, the groups of a text are found as if it began there. -/
theorem groups_append (pos : Nat) {xs : List Char} (hxs : EndsFresh xs) (ys : List Char) :
    groups pos (xs ++ ys) = groups pos xs ++ groups (pos + utf8Length xs) ys := by
  induction byRuns xs generalizing pos with
  | nil => rfl
  | @space cs _ ih =>
    have hcs : EndsFresh cs := EndsFresh.of_append (show EndsFresh ([' '] ++ cs) from hxs)
    rw [List.cons_append, groups_space, groups_space, ih _ hcs, utf8Length, ← Nat.add_assoc]
    rfl
  | @run run rest h0 hrun hrest _ ih =>
    have hne : rest ≠ [] := by
      rintro rfl
      rw [List.append_nil] at hxs
      exact not_endsFresh h0 hrun hxs
    rw [List.append_assoc, groups_run_append pos h0 hrun ((startsFresh_append hne ys).2 hrest),
      groups_run_append pos h0 hrun hrest, ih _ hxs.of_append, utf8Length_append, List.cons_append,
      Nat.add_assoc]

/-! ## Runs -/

/-- In a text there is a maximal run of characters other than the space, between two parts. -/
structure IsRun (text before run after : String) : Prop where
  text_eq : text = before ++ run ++ after
  ne_empty : run ≠ ""
  ne_space : ∀ c ∈ run.toList, c ≠ ' '
  before_fresh : EndsFresh before.toList
  after_fresh : StartsFresh after.toList

/-- A run is a group, behind those of what is before it. -/
theorem IsRun.groups_eq {text before run after : String} (h : IsRun text before run after) :
    groups 0 text.toList = groups 0 before.toList ++
      ⟨before.utf8ByteSize, run.toList⟩ ::
        groups (before.utf8ByteSize + run.utf8ByteSize) after.toList := by
  have h0 : run.toList ≠ [] := fun hnil => h.ne_empty (String.toList_eq_nil_iff.1 hnil)
  rw [h.text_eq, String.toList_append, String.toList_append, List.append_assoc,
    groups_append 0 h.before_fresh, groups_run_append _ h0 h.ne_space h.after_fresh, Nat.zero_add,
    utf8Length_toList, utf8Length_toList]

/-- A group is a run, and the groups in front of it are those of what is before the run. -/
theorem exists_run_of_groups {pos : Nat} {text : List Char} {pre post : List Group} {g : Group}
    (h : groups pos text = pre ++ g :: post) :
    ∃ before after, text = before ++ g.chars ++ after ∧ g.chars ≠ [] ∧ (∀ c ∈ g.chars, c ≠ ' ') ∧
      EndsFresh before ∧ StartsFresh after ∧ g.start = pos + utf8Length before ∧
      groups pos before = pre := by
  induction byRuns text generalizing pos pre with
  | nil => cases pre <;> contradiction
  | @space cs _ ih =>
    rw [groups_space] at h
    obtain ⟨before, after, rfl, h0, hrun, hbefore, hafter, hstart, hpre⟩ := ih h
    refine ⟨' ' :: before, after, rfl, h0, hrun, ?_, hafter, ?_, hpre⟩
    · by_cases hne : before = []
      · rw [hne]
        exact fun c hc => (Option.mem_some.1 hc).symm
      · exact (endsFresh_append [' '] hne).2 hbefore
    · rw [hstart, utf8Length, ← Nat.add_assoc]
      rfl
  | @run run rest h0 hrun hrest _ ih =>
    rw [groups_run_append pos h0 hrun hrest] at h
    cases pre with
    | nil =>
      obtain ⟨rfl, -⟩ := List.cons.inj h
      exact ⟨[], rest, rfl, h0, hrun, nofun, hrest, rfl, rfl⟩
    | cons first pre =>
      obtain ⟨rfl, htail⟩ := List.cons.inj h
      obtain ⟨before, after, rfl, hg0, hgrun, hbefore, hafter, hstart, hpre⟩ := ih htail
      -- the rest begins with a space, which is no part of the group
      have hne : before ≠ [] := by
        rintro rfl
        rw [List.nil_append, startsFresh_append hg0] at hrest
        exact hgrun _ (List.head_mem hg0) (hrest _ (List.head?_eq_some_head hg0))
      rw [List.append_assoc, startsFresh_append hne] at hrest
      refine ⟨run ++ before, after, by simp only [List.append_assoc], hg0, hgrun,
        (endsFresh_append run hne).2 hbefore, hafter, ?_, ?_⟩
      · rw [hstart, utf8Length_append, Nat.add_assoc]
      · rw [groups_run_append pos h0 hrun hrest, hpre]

/-- A group starts within the text. -/
theorem start_lt_of_mem_groups {pos : Nat} {text : List Char} {g : Group} (h : g ∈ groups pos text) :
    g.start < pos + utf8Length text := by
  obtain ⟨pre, post, hsplit⟩ := List.append_of_mem h
  obtain ⟨before, after, rfl, h0, -, -, -, hstart, -⟩ := exists_run_of_groups hsplit
  have hlen := utf8Length_pos h0
  rw [hstart, utf8Length_append, utf8Length_append]
  omega

theorem IsRun.mem_groups {text before run after : String} (h : IsRun text before run after) :
    ⟨before.utf8ByteSize, run.toList⟩ ∈ groups 0 text.toList := by
  rw [h.groups_eq]
  exact List.mem_append_right _ List.mem_cons_self

theorem exists_isRun {text : String} {pre post : List Group} {g : Group}
    (h : groups 0 text.toList = pre ++ g :: post) :
    ∃ before after, IsRun text before (String.ofList g.chars) after ∧
      before.utf8ByteSize = g.start ∧ groups 0 before.toList = pre := by
  obtain ⟨before, after, htext, h0, hrun, hbefore, hafter, hstart, hpre⟩ := exists_run_of_groups h
  refine ⟨String.ofList before, String.ofList after, ⟨?_, ?_, ?_, ?_, ?_⟩, ?_, ?_⟩
  · rw [← String.ofList_append, ← String.ofList_append, ← htext, String.ofList_toList]
  · rwa [Ne, String.ofList_eq_empty_iff]
  · rwa [String.toList_ofList]
  · rwa [String.toList_ofList]
  · rwa [String.toList_ofList]
  · rw [utf8ByteSize_ofList, hstart, Nat.zero_add]
  · rw [String.toList_ofList, hpre]

end Bitwire
