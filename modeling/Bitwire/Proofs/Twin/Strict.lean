import Bitwire.Proofs.Requests
import Bitwire.Proofs.Tidy
import Bitwire.Proofs.Twin.Setup

/-!
# Looking for stray bits

A session whose streams look for stray bits does what the same session does without, up to the first
raw run with stray bits that would be accepted otherwise. There it fails, and nowhere else.

* `Workspace.reports`: a session in which all streams look for stray bits, or none does.
* `CutAtStray`: the reports of one session up to the first raw run with stray bits.
* `Dirty.fault?_perform`: a raw run with stray bits fails where they are looked for.
* `strictLikeness`: all other operations do the same.
* `strict_refuses_stray_only`: whole sessions, codecs and transfers.
-/

namespace Bitwire

open Bitwire.Stream

variable {count : Nat}

/-! ## Sessions with and without -/

/-- The step, where a new stream looks for stray bits or does not. -/
def Step.withStrict (strict : Bool) : Step count → Step count
  | create slot setup origin => create slot { setup with strict } origin
  | x => x

/-- The reports of a session in which all streams look for stray bits, or none does. -/
def Workspace.reports (strict : Bool) (xs : List (Except Fault (Step count))) (a : Allocator) :
    List (Except Fault Report) :=
  (steps (xs.map (Except.map (Step.withStrict strict))) (start a)).1

/-- A raw run with stray bits is written. -/
inductive Step.Dirty : Step count → UInt8 → Prop
  | act (slot : Slot count) {op : WriteOp} {byte : UInt8} :
      op.Dirty byte → Dirty (act slot (.write op)) byte

/-- Step `i` writes a raw run with stray bits, and it succeeds. -/
def DirtyAt (xs : List (Except Fault (Step count))) (reports : List (Except Fault Report)) (i : Nat)
    (byte : UInt8) : Prop :=
  (∃ x, xs[i]? = some (.ok x) ∧ x.Dirty byte) ∧ ∃ r, reports[i]? = some (.ok r)

/-- The reports `strict` are the reports `lax` up to the first raw run with stray bits, and end there
with a fault. -/
structure CutAtStray (xs : List (Except Fault (Step count))) (lax strict : List (Except Fault Report)) :
    Prop where
  agree : (∀ i byte, ¬ DirtyAt xs lax i byte) → strict = lax
  refuse (i : Nat) (byte : UInt8) : DirtyAt xs lax i byte →
    (∀ j < i, ∀ byte', ¬ DirtyAt xs lax j byte') → strict = lax.take i ++ [.error (.strayBits byte)]

namespace CutAtStray

variable {x : Step count} {xs : List (Except Fault (Step count))} {rs rs' : List (Except Fault Report)}

theorem of_clean (h : ∀ i byte, ¬ DirtyAt xs rs i byte) : CutAtStray xs rs rs where
  agree _ := rfl
  refuse i byte hdirty _ := absurd hdirty (h i byte)

/-- A step that fails is the last one. -/
theorem fault (xs : List (Except Fault (Step count))) (f : Fault) :
    CutAtStray xs [.error f] [.error f] := by
  refine of_clean ?_
  rintro i byte ⟨-, r, hr⟩
  cases List.mem_singleton.1 (List.mem_of_getElem? hr)

theorem cons (hx : ∀ byte, ¬ x.Dirty byte) (h : CutAtStray xs rs rs') (r : Report) :
    CutAtStray (.ok x :: xs) (.ok r :: rs) (.ok r :: rs') where
  agree hclean := by
    rw [h.agree fun i byte => hclean (i + 1) byte]
  refuse i byte hdirty hfirst := by
    cases i with
    | zero =>
      obtain ⟨⟨_, ⟨⟩, hdirty⟩, -⟩ := hdirty
      exact absurd hdirty (hx byte)
    | succ i =>
      rw [h.refuse i byte hdirty fun j hj => hfirst (j + 1) (Nat.succ_lt_succ hj)]
      rfl

/-- The first raw run with stray bits. -/
theorem stray {byte : UInt8} (hx : x.Dirty byte) (xs : List (Except Fault (Step count))) (r : Report)
    (rs : List (Except Fault Report)) :
    CutAtStray (.ok x :: xs) (.ok r :: rs) [.error (.strayBits byte)] := by
  have hdirty : DirtyAt (.ok x :: xs) (.ok r :: rs) 0 byte := ⟨⟨x, rfl, hx⟩, r, rfl⟩
  refine ⟨fun hclean => absurd hdirty (hclean 0 byte), fun i byte' hdirty' hfirst => ?_⟩
  cases i with
  | zero =>
    obtain ⟨⟨_, ⟨⟩, hx'⟩, -⟩ := hdirty'
    obtain ⟨slot, hop⟩ := hx
    obtain ⟨-, hop'⟩ := hx'
    rw [hop.unique hop']
    rfl
  | succ i => exact absurd hdirty (hfirst 0 (Nat.succ_pos i) byte)

end CutAtStray

/-! ## Raw runs with stray bits -/

/-- The setup with stray bits looked for. -/
def Setup.strictly (p : Setup) : Setup := { p with strict := true }

/-- Where stray bits are looked for, a raw run that has some fails: for what it fails for anyway, or
else for them. -/
theorem WriteOp.Dirty.fault?_perform {op : WriteOp} {byte : UInt8} (h : op.Dirty byte) {s : Stream}
    (hs : s.setup.strict = false) (a : Allocator) :
    fault? (op.perform ⟨s.withSetup .strictly, a⟩) =
      some ((fault? (op.perform ⟨s, a⟩)).getD (.strayBits byte)) := by
  obtain ⟨src, n, rfl⟩ := h.exists_run
  rw [WriteOp.perform, h.perform_eq]
  have hreserve := coupled_reserve_setUpBy (f := .strictly) (b := ⟨s, a⟩) rfl n
  rcases hreserve.cases_some with ⟨_, _, b, c, hb, hc, -, rfl⟩ | ⟨f, b, c, hb, hc⟩
  · obtain ⟨hroom, -, hsetup⟩ := hasRoom_of_reserve hb
    have hlax : b.stream.setup.strict = false := hsetup ▸ hs
    obtain ⟨buffer, hstored, -⟩ := Buffer.stores_storeRun true h.le_length hroom.fits
    rw [append_of_reserve hb, append_of_reserve hc, storeChecked_eq, storeChecked_eq, h.strayIn_eq,
      h.strayIn_eq, hlax, if_neg Bool.false_ne_true, hstored]
    rfl
  · rw [append_of_error hb, append_of_error hc]
    rfl

namespace Workspace

theorem fault?_act_none {w : Workspace count} {slot : Slot count} (op : Op) (h : w.stream? slot = none) :
    fault? ((Step.act slot op).perform w) = some (.emptySlot slot) := by
  change fault? ((onSlot slot op.perform >>= report slot) w) = _
  rw [bind_of_error (onSlot_none h)]
  rfl

theorem fault?_act_some {w : Workspace count} {slot : Slot count} {s : Stream} (op : Op)
    (h : w.stream? slot = some s) :
    fault? ((Step.act slot op).perform w) = fault? (op.perform ⟨s, w.allocator⟩) := by
  change fault? ((onSlot slot op.perform >>= report slot) w) = _
  have hact := onSlot_some (x := op.perform) h
  cases hop : op.perform ⟨s, w.allocator⟩ with
  | ok v b =>
    rw [hop] at hact
    have hslot :
        ({ w.put slot (some b.stream) with allocator := b.allocator } : Workspace count).stream? slot =
          some b.stream := (stream?_put w slot slot _).trans (if_pos rfl)
    rw [bind_of_ok hact, report, streamAt_bind_some hslot]
    rfl
  | error f b =>
    rw [hop] at hact
    rw [bind_of_error hact]
    rfl

/-- A step that fails ends a session. -/
theorem steps_of_fault {w : Workspace count} {x : Step count} {f : Fault}
    (h : fault? (x.perform w) = some f)
    (xs : List (Except Fault (Step count))) : (steps (.ok x :: xs) w).1 = [.error f] := by
  unfold steps
  cases hx : x.perform w with
  | ok r w' =>
    rw [hx] at h
    contradiction
  | error f' w' =>
    rw [hx] at h
    cases h
    rfl

theorem steps_of_ok {w w' : Workspace count} {x : Step count} {r : Report} (h : x.perform w = .ok r w')
    (xs : List (Except Fault (Step count))) : (steps (.ok x :: xs) w).1 = .ok r :: (steps xs w').1 := by
  rw [steps, h]

end Workspace

/-! ## All other operations -/

/-- Everything is looked at. -/
def Observer.exact : Observer := ⟨some, id, id⟩

theorem Observer.report_exact (r : Report) : Observer.exact.report r = r := by
  unfold Observer.report Observer.exact
  rw [Option.map_id]
  rfl

/-- Streams that look for stray bits and streams that do not are alike as long as no raw run has any. -/
def strictLikeness : Likeness .exact where
  Setups p q := p.strict = false ∧ q = p.strictly
  Streams s t := s.Valid ∧ s.setup.strict = false ∧ t = s.withSetup .strictly
  Allocators := Eq
  Allowed op _ := ∀ x byte, op = .write x → ¬ x.Dirty byte
  alike := by
    rintro s _ ⟨hs, -, rfl⟩
    exact hs.alike_withSetup _
  snapshot_eq := by
    rintro s _ ⟨-, -, rfl⟩
    rfl
  counters_eq := by
    rintro a _ rfl
    rfl
  make := by
    rintro p _ a _ origin ⟨hp, rfl⟩ rfl
    refine (coupled_make_setUpBy .strictly p origin a).imp fun s t _ _ _ _ hst ha => ?_
    obtain ⟨hs, rfl, rfl⟩ := hst
    exact ⟨⟨hs, hp, rfl⟩, ha⟩
  clone := by
    rintro s _ a _ ⟨hs, hlax, rfl⟩ rfl
    refine (coupled_clone_setUpBy .strictly s a).imp fun s' t' _ _ _ _ hst ha => ?_
    obtain ⟨rfl, rfl⟩ := hst
    exact ⟨⟨hs, hlax, rfl⟩, ha⟩
  release := by
    rintro s _ a _ ⟨-, -, rfl⟩ rfl
    exact .refl _
  perform := by
    rintro s _ a _ op hclean ⟨hs, hlax, rfl⟩ rfl
    have hwrite : ∀ x, op = .write x → Coupled some Eq (SetUpBy .strictly) (x.perform ⟨s, a⟩)
        (x.perform ⟨s.withSetup .strictly, a⟩) := fun x hx =>
      (x.blind fun byte => hclean x byte hx).coupled_setUpBy rfl
    refine (coupled_op_setUpBy hs .strictly a id (fun q _ => by cases q <;> rfl) hwrite).imp
      fun v w b c hb _ hv hbc => ⟨hv, ?_⟩
    subst hbc
    obtain ⟨hvalid, hev⟩ := hs.perform hb
    exact ⟨⟨hvalid, hev.setup_eq ▸ hlax, rfl⟩, rfl⟩
  transfer := by
    rintro s _ σ _ a _ n ⟨hs, hlax, rfl⟩ ⟨hσ, hσlax, rfl⟩ rfl
    -- the destination is set up differently first, and then the source
    have hdest := (blind_transfer σ n).coupled_setUpBy (f := .strictly) (b := ⟨s, a⟩) rfl
    have hsource := coupled_transfer (transparent_eq some) n (hσ.alike_withSetup .strictly)
      (b := ⟨s.withSetup .strictly, a⟩) rfl
    refine (hdest.trans hsource).imp ?_
    rintro ⟨k, σ'⟩ ⟨_, τ'⟩ b c hleft hright ⟨_, rfl, rfl, -⟩ ⟨_, rfl, rfl⟩
    obtain ⟨-, hn, rfl, hext⟩ := transfer_eq_ok hleft
    obtain ⟨-, -, rfl, -⟩ := transfer_eq_ok hright
    obtain ⟨hvalid, hev⟩ := hσ.next (.send hleft)
    have hext := hext hs
    exact ⟨⟨rfl, hvalid, hσlax, rfl⟩, ⟨hext.valid, hext.evolves.setup_eq ▸ hlax, rfl⟩, rfl⟩

theorem strictLikeness_step (x : Except Fault (Step count)) :
    strictLikeness.Steps (x.map (Step.withStrict false)) (x.map (Step.withStrict true)) := by
  cases x with
  | error f => exact .refused f
  | ok x =>
    cases x with
    | create slot p origin => exact .create slot origin ⟨rfl, rfl⟩
    | clone slot source => exact .clone slot source
    | drop slot => exact .drop slot
    | counters => exact .counters
    | act slot op => exact .act slot op
    | transfer slot source bits => exact .transfer slot source bits

/-! ## Sessions -/

section Sessions

variable {w w' : Workspace count} (h : strictLikeness.Workspaces w w')
include h

/-- A step does the same in both sessions, unless it writes a raw run with stray bits. -/
theorem coupled_withStrict {x : Step count} (hx : ∀ byte, ¬ x.Dirty byte) :
    Coupled some Eq strictLikeness.Workspaces ((x.withStrict false).perform w)
      ((x.withStrict true).perform w') := by
  have hclean : ∀ slot op s, x.withStrict false = .act slot op → w.stream? slot = some s →
      strictLikeness.Allowed op s := by
    rintro slot _ s hact - op byte rfl hop
    cases x with
    | act slot' op' =>
      cases hact
      exact hx byte (.act slot hop)
    | _ => contradiction
  refine (Likeness.coupled_perform (strictLikeness_step (.ok x)) h hclean).imp
    fun r r' _ _ _ _ hr h' => ⟨?_, h'⟩
  rwa [Observer.report_exact, Observer.report_exact] at hr

/-- A raw run with stray bits fails where they are looked for. -/
theorem Step.Dirty.fault?_perform {x : Step count} {byte : UInt8} (hx : x.Dirty byte) :
    fault? (x.perform w') = some ((fault? (x.perform w)).getD (.strayBits byte)) := by
  obtain ⟨slot, hop⟩ := hx
  rcases h.slot_cases slot with ⟨hs, ht⟩ | ⟨s, t, hs, ht, -, hlax, rfl⟩
  · rw [Workspace.fault?_act_none _ hs, Workspace.fault?_act_none _ ht]
    rfl
  · have ha : w.allocator = w'.allocator := h.allocator
    have hwrite (b : Backed) (op : WriteOp) : fault? ((Op.write op).perform b) = fault? (op.perform b) :=
      fault?_answer op.perform Answer.count b
    rw [Workspace.fault?_act_some _ hs, Workspace.fault?_act_some _ ht, hwrite, hwrite, ← ha]
    exact hop.fault?_perform hlax w.allocator

/-- The induction follows the steps. Up to the first raw run with stray bits, the workspaces stay
alike. -/
theorem cutAtStray_steps (xs : List (Except Fault (Step count))) :
    CutAtStray xs (Workspace.steps (xs.map (Except.map (Step.withStrict false))) w).1
      (Workspace.steps (xs.map (Except.map (Step.withStrict true))) w').1 := by
  induction xs generalizing w w' with
  | nil =>
    refine .of_clean ?_
    rintro i byte ⟨-, r, hr⟩
    contradiction
  | cons x xs ih =>
    cases x with
    | error f => exact .fault _ f
    | ok x =>
      simp only [List.map_cons, Except.map]
      by_cases hx : ∃ byte, x.Dirty byte
      · obtain ⟨byte, hx⟩ := hx
        have hfault := hx.fault?_perform h
        have hsame (strict : Bool) : x.withStrict strict = x := by
          obtain ⟨slot, -⟩ := hx
          rfl
        rw [hsame, hsame, Workspace.steps_of_fault hfault]
        cases hlax : x.perform w with
        | ok r w₁ =>
          rw [Workspace.steps_of_ok hlax]
          exact .stray hx xs r _
        | error f w₁ =>
          have hf : fault? (x.perform w) = some f := congrArg fault? hlax
          rw [Workspace.steps_of_fault hf]
          exact .fault _ f
      · have hx := not_exists.1 hx
        rcases (coupled_withStrict h hx).cases_some with ⟨r, _, w₁, w₁', hlax, hstrict, rfl, h₁⟩ |
          ⟨f, w₁, w₁', hlax, hstrict⟩
        · rw [Workspace.steps_of_ok hlax, Workspace.steps_of_ok hstrict]
          exact (ih h₁).cons hx r
        · rw [Workspace.steps_of_fault (congrArg fault? hlax),
            Workspace.steps_of_fault (congrArg fault? hstrict)]
          exact .fault _ f

end Sessions

/-- Looking for stray bits refuses raw runs that have some, and nothing else. A session in which all
streams look for them gives the same reports as the same session in which none does, up to the first
accepted raw run with stray bits; there it fails. No other write fails for stray bits, so that no codec
does, and no transfer does. -/
theorem strict_refuses_stray_only (xs : List (Except Fault (Step count))) (a : Allocator) :
    CutAtStray xs (Workspace.reports false xs a) (Workspace.reports true xs a) ∧
      (∀ (op : WriteOp) (b c : Backed) (byte : UInt8), op.perform b = .error (.strayBits byte) c →
        op.Dirty byte) ∧
      ∀ (source : Stream) (n : Nat) (b c : Backed) (byte : UInt8),
        transfer source n b ≠ .error (.strayBits byte) c := by
  have hstart : strictLikeness.Workspaces (.start a : Workspace count) (.start a) := by
    refine ⟨rfl, fun slot => ?_⟩
    rw [Workspace.stream?_start]
    exact .none
  refine ⟨cutAtStray_steps hstart xs, fun op b c byte h => WriteOp.dirty_of_strayBits h, ?_⟩
  intro source n b c byte h
  exact ((blind_transfer source n).fault h).elim (· trivial) fun hroom =>
    Fault.not_stray_of_room hroom trivial

/-- A nibble is taken from a byte in which another bit is set. -/
def strayNibble : List (Except Fault Step) :=
  [.ok (.create .first {} .empty), .ok (.act .first (.write (.run [0x1F] 4 true))),
    .ok (.drop .first)]

/-- It is accepted, and refused where stray bits are looked for. -/
theorem strict_refuses_stray_only_nibble :
    Workspace.reports true strayNibble .system =
      (Workspace.reports false strayNibble .system).take 1 ++ [.error (.strayBits 0x1F)] := by
  have hdirty : (WriteOp.run [0x1F] 4 true).Dirty 0x1F := .run (by decide) rfl (by decide)
  have haccepted : ∃ r, (Workspace.reports false strayNibble .system)[1]? = some (.ok r) := by
    have hok : (Workspace.reports false strayNibble .system)[1]?.map Except.toBool = some true := by
      decide +kernel
    obtain ⟨r, hr, hok⟩ := Option.map_eq_some_iff.1 hok
    cases r with
    | ok r => exact ⟨r, hr⟩
    | error f => exact absurd hok Bool.false_ne_true
  refine (strict_refuses_stray_only strayNibble .system).1.refuse 1 0x1F
    ⟨⟨_, rfl, .act .first hdirty⟩, haccepted⟩ ?_
  rintro j hj byte ⟨⟨x, hx, hfirst⟩, -⟩
  -- before the nibble, a stream is made
  cases Nat.lt_one_iff.1 hj
  cases hx
  contradiction

end Bitwire
