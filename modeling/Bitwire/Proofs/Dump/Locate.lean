import Bitwire.Proofs.Dump.Group

/-!
# Faults in dumps

A text is a dump if each of its groups has a length that fits and holds nothing but digits. If it is none,
its first group that is wrong says why. Lengths and positions count bytes of the encoding, while digits are
characters; a group is gone through only as long as all its characters are digits, each of one byte, so that
the two do not get out of step.

* `Scheme`: lengths and digits of the groups of a dump; `Scheme.binary`, `Scheme.hexadecimal`.
* `Scheme.Accepts`, `Scheme.Refuses`: whether a run is a group, and what is wrong with it.
* `Scheme.FirstFault`: what is wrong with a text.
* `parse_locates`: which texts are dumps, and where the others fail.
-/

namespace Bitwire

/-- How the groups of a dump look. -/
structure Scheme where
  /-- The lengths in bytes that a group may have. -/
  fits : Nat → Prop
  /-- The characters of a group. -/
  digits : String
  /-- What is said about a group of another length, given where it starts. -/
  misfit : Nat → DumpError

namespace Scheme

/-- Up to eight binary digits. -/
def binary : Scheme := ⟨(· ≤ 8), "01", .groupTooLong⟩

/-- Pairs of hexadecimal digits of either case. -/
def hexadecimal : Scheme := ⟨(· % 2 = 0), "0123456789abcdefABCDEF", .oddGroup⟩

variable (k : Scheme)

/-- The run is a group. -/
def Accepts (run : String) : Prop :=
  k.fits run.utf8ByteSize ∧ ∀ c ∈ run.toList, c ∈ k.digits.toList

/-- The run, which starts at `pos`, is no group. A wrong length is told first, and else the first
character that is no digit with the position at which it starts. -/
inductive Refuses (pos : Nat) (run : String) : DumpError → Prop
  | misfit : ¬ k.fits run.utf8ByteSize → Refuses pos run (k.misfit pos)
  | digit {good rest : String} {c : Char} : k.fits run.utf8ByteSize →
      run = good ++ String.singleton c ++ rest → (∀ d ∈ good.toList, d ∈ k.digits.toList) →
      c ∉ k.digits.toList → Refuses pos run (.invalidDigit (pos + good.utf8ByteSize) c)

/-- What is wrong with the first run of a text that is no group. -/
def FirstFault (text : String) (e : DumpError) : Prop :=
  ∃ before run after, IsRun text before run after ∧ k.Refuses before.utf8ByteSize run e ∧
    ∀ before' run' after', IsRun text before' run' after' →
      before'.utf8ByteSize < before.utf8ByteSize → k.Accepts run'

/-! ## Runs -/

/-- There is one first character that does not satisfy a predicate. -/
theorem eq_of_first {P : Char → Prop} {xs ys xs' ys' : List Char} {x y : Char}
    (h : xs ++ x :: xs' = ys ++ y :: ys') (hxs : ∀ c ∈ xs, P c) (hx : ¬ P x) (hys : ∀ c ∈ ys, P c)
    (hy : ¬ P y) : xs = ys ∧ x = y := by
  induction xs generalizing ys with
  | nil =>
    cases ys with
    | nil => exact ⟨rfl, (List.cons.inj h).1⟩
    | cons c cs =>
      obtain ⟨rfl, -⟩ := List.cons.inj h
      exact absurd (hys x List.mem_cons_self) hx
  | cons c cs ih =>
    cases ys with
    | nil =>
      obtain ⟨rfl, -⟩ := List.cons.inj h
      exact absurd (hxs c List.mem_cons_self) hy
    | cons d ds =>
      obtain ⟨rfl, htail⟩ := List.cons.inj h
      obtain ⟨rfl, hxy⟩ := ih htail (fun e he => hxs e (List.mem_cons_of_mem c he))
        fun e he => hys e (List.mem_cons_of_mem c he)
      exact ⟨rfl, hxy⟩

namespace Refuses

variable {k} {pos : Nat} {run : String} {e e' : DumpError}

theorem not_accepts (h : k.Refuses pos run e) : ¬ k.Accepts run := by
  rintro ⟨hfits, hdigits⟩
  cases h with
  | misfit h => exact h hfits
  | @digit good rest c _ hrun _ hc =>
    refine hc (hdigits c ?_)
    rw [hrun, String.toList_append, String.toList_append, String.toList_singleton]
    simp

theorem unique (h : k.Refuses pos run e) (h' : k.Refuses pos run e') : e = e' := by
  cases h with
  | misfit hlen =>
    cases h' with
    | misfit => rfl
    | digit hfits => exact absurd hfits hlen
  | @digit good rest c hfits hrun hgood hc =>
    cases h' with
    | misfit hlen => exact absurd hfits hlen
    | @digit good' rest' c' _ hrun' hgood' hc' =>
      have hsame := congrArg String.toList (hrun.symm.trans hrun')
      simp only [String.toList_append, String.toList_singleton, List.append_assoc,
        List.singleton_append] at hsame
      obtain ⟨hlist, rfl⟩ := eq_of_first hsame hgood hc hgood' hc'
      rw [String.toList_inj.1 hlist]

end Refuses

end Scheme

/-! ## Reading all groups -/

section Groups

variable {α β ε : Type} {f : α → Except ε β}

theorem exists_mapM_eq_ok_iff {xs : List α} :
    (∃ ys, xs.mapM f = .ok ys) ↔ ∀ x ∈ xs, ∃ y, f x = .ok y := by
  induction xs with
  | nil => exact ⟨fun _ => nofun, fun _ => ⟨[], rfl⟩⟩
  | cons x xs ih =>
    rw [List.mapM_cons, List.forall_mem_cons, ← ih]
    cases hx : f x with
    | error e => exact ⟨nofun, nofun⟩
    | ok y =>
      cases hxs : xs.mapM f with
      | error e => exact ⟨nofun, nofun⟩
      | ok ys => exact ⟨fun _ => ⟨⟨y, rfl⟩, ys, rfl⟩, fun _ => ⟨y :: ys, rfl⟩⟩

theorem mapM_eq_error_of_first {pre post : List α} {x : α} {e : ε}
    (hpre : ∀ y ∈ pre, ∃ z, f y = .ok z) (hx : f x = .error e) :
    (pre ++ x :: post).mapM f = .error e := by
  obtain ⟨ys, hys⟩ := exists_mapM_eq_ok_iff.2 hpre
  rw [List.mapM_append, hys, List.mapM_cons, hx]
  rfl

theorem exists_first_of_mapM_eq_error {xs : List α} {e : ε} (h : xs.mapM f = .error e) :
    ∃ pre x post, xs = pre ++ x :: post ∧ (∀ y ∈ pre, ∃ z, f y = .ok z) ∧ f x = .error e := by
  induction xs with
  | nil => contradiction
  | cons x xs ih =>
    rw [List.mapM_cons] at h
    cases hx : f x with
    | error e' =>
      rw [hx] at h
      cases h
      exact ⟨[], x, xs, rfl, nofun, hx⟩
    | ok y =>
      rw [hx] at h
      cases hxs : xs.mapM f with
      | ok ys =>
        rw [hxs] at h
        contradiction
      | error e' =>
        rw [hxs] at h
        cases h
        obtain ⟨pre, x', post, rfl, hpre, hx'⟩ := ih hxs
        exact ⟨x :: pre, x', post, rfl, List.forall_mem_cons.2 ⟨⟨y, hx⟩, hpre⟩, hx'⟩

theorem exists_map_eq_ok_iff {r : Except ε α} {f : α → β} :
    (∃ y, (do return f (← r) : Except ε β) = .ok y) ↔ ∃ x, r = .ok x := by
  cases r with
  | ok x => exact iff_of_true ⟨f x, rfl⟩ ⟨x, rfl⟩
  | error e => exact iff_of_false nofun nofun

theorem map_eq_error_iff {r : Except ε α} {f : α → β} {e : ε} :
    (do return f (← r) : Except ε β) = .error e ↔ r = .error e := by
  cases r with
  | ok x => exact iff_of_false nofun nofun
  | error e' => exact ⟨fun h => congrArg _ (Except.error.inj h), fun h => congrArg _ (Except.error.inj h)⟩

end Groups

namespace Scheme

/-- A reader of groups that reads what a scheme accepts, and says what is wrong where it refuses. -/
def Describes {α : Type} (k : Scheme) (f : Group → Except DumpError α) : Prop :=
  ∀ g : Group, k.Accepts (String.ofList g.chars) ∧ (∃ v, f g = .ok v) ∨
    ∃ e, k.Refuses g.start (String.ofList g.chars) e ∧ f g = .error e

section Described

variable {α : Type} {k : Scheme} {f : Group → Except DumpError α} (hf : k.Describes f)
include hf

theorem Describes.exists_ok_iff (pos : Nat) {run : String} :
    (∃ v, f ⟨pos, run.toList⟩ = .ok v) ↔ k.Accepts run := by
  have h := hf ⟨pos, run.toList⟩
  rw [String.ofList_toList] at h
  rcases h with ⟨hrun, hok⟩ | ⟨e, hrun, herror⟩
  · exact iff_of_true hok hrun
  · exact iff_of_false (by rw [herror]; exact nofun) hrun.not_accepts

theorem Describes.error_iff {pos : Nat} {run : String} {e : DumpError} :
    f ⟨pos, run.toList⟩ = .error e ↔ k.Refuses pos run e := by
  have h := hf ⟨pos, run.toList⟩
  rw [String.ofList_toList] at h
  rcases h with ⟨hrun, v, hok⟩ | ⟨e', hrun, herror⟩
  · exact iff_of_false (by rw [hok]; exact nofun) fun h => h.not_accepts hrun
  · rw [herror]
    exact ⟨fun h => Except.error.inj h ▸ hrun, fun h => congrArg _ (hrun.unique h)⟩

/-- A text is read if all its runs are groups. -/
theorem Describes.exists_mapM_ok_iff (text : String) :
    (∃ vs, (groups 0 text.toList).mapM f = .ok vs) ↔
      ∀ before run after, IsRun text before run after → k.Accepts run := by
  rw [exists_mapM_eq_ok_iff]
  constructor
  · intro h before run after hrun
    exact (hf.exists_ok_iff _).1 (h _ hrun.mem_groups)
  · intro h g hg
    obtain ⟨pre, post, hsplit⟩ := List.append_of_mem hg
    obtain ⟨before, after, hrun, hstart, -⟩ := exists_isRun hsplit
    have hok := (hf.exists_ok_iff g.start).2 (h _ _ _ hrun)
    rwa [String.toList_ofList] at hok

/-- A text fails for the first of its runs that is no group. -/
theorem Describes.mapM_error_iff (text : String) (e : DumpError) :
    (groups 0 text.toList).mapM f = .error e ↔ k.FirstFault text e := by
  constructor
  · intro h
    obtain ⟨pre, g, post, hsplit, hpre, hg⟩ := exists_first_of_mapM_eq_error h
    obtain ⟨before, after, hrun, hstart, hbefore⟩ := exists_isRun hsplit
    have hrefused : k.Refuses before.utf8ByteSize (String.ofList g.chars) e := by
      rw [← hf.error_iff, String.toList_ofList, hstart]
      exact hg
    refine ⟨before, _, after, hrun, hrefused, fun before' run' after' hrun' hlt => ?_⟩
    -- a run in front of the group is one of those that were read before it
    have hmem := hrun'.mem_groups
    rw [hrun.groups_eq, List.mem_append, List.mem_cons] at hmem
    rcases hmem with hmem | hsame | hmem
    · rw [hbefore] at hmem
      exact (hf.exists_ok_iff _).1 (hpre _ hmem)
    · exact absurd (congrArg Group.start hsame) (Nat.ne_of_lt hlt)
    · have hle : before.utf8ByteSize + _ ≤ before'.utf8ByteSize := start_of_mem_groups hmem
      omega
  · rintro ⟨before, run, after, hrun, hrefused, hothers⟩
    rw [hrun.groups_eq]
    refine mapM_eq_error_of_first (fun g hg => ?_) (hf.error_iff.2 hrefused)
    have hlt := start_lt_of_mem_groups hg
    rw [Nat.zero_add, utf8Length_toList] at hlt
    obtain ⟨pre, post, hsplit⟩ := List.append_of_mem hg
    have hall := hrun.groups_eq
    rw [hsplit, List.append_assoc, List.cons_append] at hall
    obtain ⟨before', after', hrun', hstart, -⟩ := exists_isRun hall
    have hok := (hf.exists_ok_iff g.start).2 (hothers _ _ _ hrun' (by omega))
    rwa [String.toList_ofList] at hok

end Described

end Scheme

/-! ## Reading digits -/

/-- Characters that start at `pos` are read if all of them are digits, and else the first that is none
is told with its position. -/
def ReadsDigits {α : Type} (digits : String) (pos : Nat) (cs : List Char)
    (r : Except DumpError α) : Prop :=
  (∀ c ∈ cs, c ∈ digits.toList) ∧ (∃ v, r = .ok v) ∨
    ∃ good c rest, cs = good ++ c :: rest ∧ (∀ d ∈ good, d ∈ digits.toList) ∧ c ∉ digits.toList ∧
      r = .error (.invalidDigit (pos + utf8Length good) c)

namespace ReadsDigits

variable {α β : Type} {digits : String} {pos : Nat} {c : Char} {cs : List Char}

theorem nil (v : α) : ReadsDigits digits pos [] (.ok v) := .inl ⟨nofun, v, rfl⟩

theorem stop (hc : c ∉ digits.toList) :
    ReadsDigits (α := α) digits pos (c :: cs) (.error (.invalidDigit pos c)) :=
  .inr ⟨[], c, cs, rfl, nofun, hc, rfl⟩

theorem map {r : Except DumpError α} (h : ReadsDigits digits pos cs r) (f : α → β) :
    ReadsDigits digits pos cs (do return f (← r)) := by
  rcases h with ⟨hcs, v, rfl⟩ | ⟨good, d, rest, hsplit, hgood, hd, rfl⟩
  · exact .inl ⟨hcs, f v, rfl⟩
  · exact .inr ⟨good, d, rest, hsplit, hgood, hd, rfl⟩

/-- A digit takes one byte. -/
theorem cons (hc : c ∈ digits.toList) (hsize : c.utf8Size = 1) {r : Except DumpError α}
    (h : ReadsDigits digits (pos + 1) cs r) : ReadsDigits digits pos (c :: cs) r := by
  rcases h with ⟨hcs, hok⟩ | ⟨good, d, rest, rfl, hgood, hd, rfl⟩
  · exact .inl ⟨List.forall_mem_cons.2 ⟨hc, hcs⟩, hok⟩
  · refine .inr ⟨c :: good, d, rest, rfl, List.forall_mem_cons.2 ⟨hc, hgood⟩, hd, ?_⟩
    rw [utf8Length, hsize, ← Nat.add_assoc]

/-- A reader of groups that looks at the length first. -/
theorem describes {k : Scheme} {f : Group → Except DumpError α}
    {read : Nat → List Char → Except DumpError α}
    (hmisfit : ∀ g, ¬ k.fits (utf8Length g.chars) → f g = .error (k.misfit g.start))
    (hfit : ∀ g, k.fits (utf8Length g.chars) → f g = read g.start g.chars)
    (hread : ∀ pos cs, ReadsDigits k.digits pos cs (read pos cs)) : k.Describes f := by
  intro g
  have hlen := utf8ByteSize_ofList g.chars
  by_cases hfits : k.fits (utf8Length g.chars)
  · rw [hfit g hfits]
    have hfits' : k.fits (String.ofList g.chars).utf8ByteSize := by rwa [hlen]
    rcases hread g.start g.chars with ⟨hdigits, hok⟩ | ⟨good, c, rest, hchars, hgood, hc, herror⟩
    · exact .inl ⟨⟨hfits', by rwa [String.toList_ofList]⟩, hok⟩
    · refine .inr ⟨_, ?_, herror⟩
      rw [← utf8ByteSize_ofList good]
      have hrun : String.ofList g.chars =
          String.ofList good ++ String.singleton c ++ String.ofList rest := by
        rw [hchars, String.singleton_eq_ofList, ← String.ofList_append, ← String.ofList_append,
          List.append_assoc, List.singleton_append]
      exact .digit hfits' hrun (by rwa [String.toList_ofList]) hc
  · exact .inr ⟨_, .misfit (by rwa [hlen]), hmisfit g hfits⟩

end ReadsDigits

theorem readsDigits_binary (pos : Nat) (cs : List Char) :
    ReadsDigits Scheme.binary.digits pos cs (readBitDigits pos cs) := by
  induction cs generalizing pos with
  | nil => exact .nil []
  | cons c cs ih =>
    have hdigits : c ∈ Scheme.binary.digits.toList ↔ c = '0' ∨ c = '1' := by
      simp [Scheme.binary]
    unfold readBitDigits
    split
    · rename_i hc
      have hsize : c.utf8Size = 1 := by rcases hc with rfl | rfl <;> rfl
      exact .cons (hdigits.2 hc) hsize ((ih (pos + 1)).map (decide (c = '1') :: ·))
    · exact .stop (fun hc => ‹¬ _› (hdigits.1 hc))

theorem toNat_lt_of_hexValue? {c : Char} {d : UInt8} (h : hexValue? c = some d) : c.toNat < 128 := by
  have hle {t : Char} (hc : c ≤ t) (ht : t.toNat < 128) : c.toNat < 128 :=
    Nat.lt_of_le_of_lt hc ht
  unfold hexValue? at h
  split at h
  · exact hle (t := '9') (And.right ‹_›) (by decide)
  · split at h
    · exact hle (t := 'f') (And.right ‹_›) (by decide)
    · split at h
      · exact hle (t := 'F') (And.right ‹_›) (by decide)
      · contradiction

theorem utf8Size_of_mem_hexDigits {c : Char} (h : c ∈ Scheme.hexadecimal.digits.toList) :
    c.utf8Size = 1 := by
  have hall : Scheme.hexadecimal.digits.toList.all (fun c => c.utf8Size == 1) = true := by
    decide +kernel
  exact beq_iff_eq.1 (List.all_eq_true.1 hall c h)

theorem mem_hexDigits_iff (c : Char) :
    c ∈ Scheme.hexadecimal.digits.toList ↔ ∃ d, hexValue? c = some d := by
  have hall : ∀ n : Fin 128, Char.ofNat n ∈ Scheme.hexadecimal.digits.toList ↔
      (hexValue? (Char.ofNat n)).isSome := by decide +kernel
  have hascii (hc : c ∈ Scheme.hexadecimal.digits.toList) : c.toNat < 128 :=
    Nat.lt_succ_of_le (Char.utf8Size_eq_one_iff.1 (utf8Size_of_mem_hexDigits hc))
  by_cases h : c.toNat < 128
  · have := hall ⟨c.toNat, h⟩
    rwa [Char.ofNat_toNat, Option.isSome_iff_exists] at this
  · exact iff_of_false (fun hc => h (hascii hc)) fun ⟨d, hd⟩ => h (toNat_lt_of_hexValue? hd)

theorem readsDigits_hexadecimal (pos : Nat) (cs : List Char) :
    ReadsDigits Scheme.hexadecimal.digits pos cs (readHexDigits pos cs) := by
  have hdigit (pos : Nat) (c : Char) :
      c ∈ Scheme.hexadecimal.digits.toList ∧ (∃ d, readHexDigit pos c = .ok d) ∨
        c ∉ Scheme.hexadecimal.digits.toList ∧ readHexDigit pos c = .error (.invalidDigit pos c) := by
    rw [mem_hexDigits_iff, readHexDigit]
    cases hexValue? c with
    | some d => exact .inl ⟨⟨d, rfl⟩, d, rfl⟩
    | none => exact .inr ⟨nofun, rfl⟩
  fun_induction readHexDigits pos cs with
  | case1 pos => exact .nil []
  | case2 pos c =>
    rcases hdigit pos c with ⟨hc, d, hd⟩ | ⟨hc, hd⟩
    · rw [hd]
      exact .cons hc (utf8Size_of_mem_hexDigits hc) (.nil [d])
    · rw [hd]
      exact .stop hc
  | case3 pos c c' cs ih =>
    rcases hdigit pos c with ⟨hc, d, hd⟩ | ⟨hc, hd⟩
    · rw [hd]
      refine .cons hc (utf8Size_of_mem_hexDigits hc) ?_
      rcases hdigit (pos + 1) c' with ⟨hc', d', hd'⟩ | ⟨hc', hd'⟩
      · rw [hd']
        exact .cons hc' (utf8Size_of_mem_hexDigits hc') (ih.map ((d <<< 4 ||| d') :: ·))
      · rw [hd']
        exact .stop hc'
    · rw [hd]
      exact .stop hc

/-! ## Texts -/

theorem describes_bits : Scheme.binary.Describes Group.bits :=
  ReadsDigits.describes (fun _ h => if_pos (Nat.lt_of_not_le h)) (fun _ h => if_neg (Nat.not_lt_of_le h))
    readsDigits_binary

theorem describes_hexBytes : Scheme.hexadecimal.Describes Group.hexBytes :=
  ReadsDigits.describes (fun _ h => if_pos (Nat.mod_two_ne_zero.1 h))
    (fun _ h => if_neg (Nat.mod_two_ne_one.2 h)) readsDigits_hexadecimal

/-- A text is read as a dump of bits just where each of its maximal runs without a space takes at most
eight bytes and holds nothing but `0` and `1`, and as one of bytes where each takes an even number of bytes
and holds nothing but hexadecimal digits. Where this is not so, the first run that fails is told: a wrong
length by where the run starts, whatever its characters are, and else its first character that is no digit
by where this character starts. -/
theorem parse_locates (text : String) :
    ((∃ bytes n, parseBits text = .ok (bytes, n)) ↔
      ∀ before run after, IsRun text before run after → Scheme.binary.Accepts run) ∧
    (∀ e, parseBits text = .error e ↔ Scheme.binary.FirstFault text e) ∧
    ((∃ bytes, parseHex text = .ok bytes) ↔
      ∀ before run after, IsRun text before run after → Scheme.hexadecimal.Accepts run) ∧
    ∀ e, parseHex text = .error e ↔ Scheme.hexadecimal.FirstFault text e := by
  have hbits := exists_map_eq_ok_iff (r := (groups 0 text.toList).mapM Group.bits)
    (f := fun gs => (gs.map byteOfBits, gs.flatten.length))
  rw [Prod.exists, describes_bits.exists_mapM_ok_iff] at hbits
  have hbytes := exists_map_eq_ok_iff (r := (groups 0 text.toList).mapM Group.hexBytes)
    (f := List.flatten)
  rw [describes_hexBytes.exists_mapM_ok_iff] at hbytes
  exact ⟨hbits, fun e => map_eq_error_iff.trans (describes_bits.mapM_error_iff text e), hbytes,
    fun e => map_eq_error_iff.trans (describes_hexBytes.mapM_error_iff text e)⟩

/-- A letter of two bytes, in a group whose length is even; the odd group behind it is not looked at. -/
example : parseHex "  7f 0é0 1" = .error (.invalidDigit 6 'é') := rfl

/-- A length is wrong before a character is. -/
example : parseBits " 1 é0123456" = .error (.groupTooLong 3) := rfl

end Bitwire
