import Replicore.Lib.Hoare

/-!
# Replacing a file

A file is replaced by a sibling that is written, synced and renamed over it, and a rename is on the
disk for sure only after the directory is synced as well.  `Disk` is what a crash chooses from: the
file that the disk has under the name, and every file that was renamed over it since.

`replace` makes the calls, any of which may be refused, and keeps every disk on the way.  A crash
anywhere leaves what a crash before could have left, or the new contents; after a replacement that
synced the directory it leaves the new contents (`replace_spec`).
-/

namespace Replace

/-- A file, and whether its contents are on the disk. -/
structure File (C : Type) where
  contents : C
  synced : Bool := false

/-- One name of a directory, and the temporary beside it. -/
structure Disk (C : Type) where
  /-- What the disk has under the name. -/
  entry : File C
  /-- What was renamed over it since the directory was synced, oldest first. -/
  renamed : List (File C) := []
  tmp : Option (File C) := none

/-- The calls of a replacement. -/
inductive Step
  | openTemp
  | writeTemp
  | syncTemp
  | rename
  | openDir
  | syncDir
  deriving DecidableEq, Repr

/-- The disk, and every disk so far. -/
structure Trace (C : Type) where
  disk : Disk C
  past : List (Disk C)

variable {C : Type}

namespace Disk

/-- What a running process reads under the name. -/
def visible (d : Disk C) : C := (d.renamed.getLastD d.entry).contents

/-- A crash may leave this under the name; of a file that was not synced, anything. -/
def Leaves (d : Disk C) (c : C) : Prop :=
  ∃ f ∈ d.entry :: d.renamed, f.synced = true → c = f.contents

/-- Open the temporary for writing, empty. -/
def openTemp (empty : C) (d : Disk C) : Disk C := { d with tmp := some { contents := empty } }

/-- Write the temporary. -/
def writeTemp (c : C) (d : Disk C) : Disk C :=
  { d with tmp := d.tmp.map fun _ => { contents := c } }

/-- Sync the temporary. -/
def syncTemp (d : Disk C) : Disk C :=
  { d with tmp := d.tmp.map fun f => { f with synced := true } }

/-- Rename the temporary over the name. -/
def rename (d : Disk C) : Disk C :=
  match d.tmp with
  | none => d
  | some f => { d with renamed := d.renamed ++ [f], tmp := none }

/-- Sync the directory. -/
def syncDir (d : Disk C) : Disk C :=
  { d with entry := d.renamed.getLastD d.entry, renamed := [] }

end Disk

/-- One call; the error is the call that is refused. -/
def call (refuse : Step → Bool) (step : Step) (f : Disk C → Disk C) :
    EStateM Step (Trace C) Unit := fun t =>
  if refuse step then .error step t
  else .ok () { disk := f t.disk, past := t.past ++ [f t.disk] }

/-- Write a sibling, sync it, rename it over the name, and sync the directory if there is one to
open. -/
def replace (refuse : Step → Bool) (hasDir : Bool) (empty c : C) : EStateM Step (Trace C) Unit := do
  call refuse .openTemp (.openTemp empty)
  call refuse .writeTemp (.writeTemp c)
  call refuse .syncTemp .syncTemp
  call refuse .rename .rename
  if hasDir then
    call refuse .openDir id
    call refuse .syncDir .syncDir

/-- The calls of a replacement. -/
def steps (hasDir : Bool) : List Step :=
  [Step.openTemp, Step.writeTemp, Step.syncTemp, Step.rename] ++
    if hasDir then [Step.openDir, Step.syncDir] else []

/-- The program fails at this call, or succeeds, whatever the disk. -/
def Answers (p : EStateM Step (Trace C) Unit) (stop : Option Step) : Prop :=
  ∀ t, ∃ t', p t =
    match stop with
    | none => .ok () t'
    | some step => .error step t'

theorem answers_call_bind {refuse : Step → Bool} {step : Step} {f : Disk C → Disk C}
    {p : EStateM Step (Trace C) Unit} {rest : List Step} (hp : Answers p (rest.find? refuse)) :
    Answers (call refuse step f >>= fun _ => p) ((step :: rest).find? refuse) := by
  intro t
  change ∃ t', EStateM.bind _ _ t = _
  unfold EStateM.bind call
  rw [List.find?_cons]
  cases hr : refuse step with
  | true => exact ⟨t, rfl⟩
  | false => exact hp _

/-- Which call a replacement fails at does not depend on the disk. -/
theorem answers_replace (refuse : Step → Bool) (hasDir : Bool) (empty c : C) :
    Answers (replace refuse hasDir empty c) ((steps hasDir).find? refuse) := by
  refine answers_call_bind <| answers_call_bind <| answers_call_bind <| answers_call_bind ?_
  cases hasDir with
  | false => exact fun t => ⟨t, rfl⟩
  | true =>
    refine answers_call_bind fun t => ?_
    unfold call
    rw [List.find?_cons]
    cases refuse .syncDir with
    | true => exact ⟨_, rfl⟩
    | false => exact ⟨_, rfl⟩

/-! ### What a crash leaves -/

/-- A crash leaves what `d₀` would have left, or `c`. -/
def Safe (d₀ : Disk C) (c : C) (d : Disk C) : Prop := ∀ x, d.Leaves x → d₀.Leaves x ∨ x = c

/-- Every disk so far is safe, and `P` holds of the last one. -/
structure SafeRun (d₀ : Disk C) (c : C) (P : Disk C → Prop) (t : Trace C) : Prop where
  past : ∀ d ∈ t.past, Safe d₀ c d
  now : P t.disk

variable {d₀ : Disk C} {c : C} {refuse : Step → Bool} {P Q : Disk C → Prop}

theorem SafeRun.mono {t : Trace C} (ht : SafeRun d₀ c P t) (hP : ∀ d, P d → Q d) :
    SafeRun d₀ c Q t :=
  ⟨ht.past, hP _ ht.now⟩

/-- The name is as it was. -/
def Untouched (d₀ : Disk C) (d : Disk C) : Prop := d.entry = d₀.entry ∧ d.renamed = d₀.renamed

/-- The new file has been renamed over the name. -/
def Renamed (d₀ : Disk C) (c : C) (d : Disk C) : Prop :=
  d.entry = d₀.entry ∧ d.renamed = d₀.renamed ++ [⟨c, true⟩]

theorem Untouched.safe {d : Disk C} (hd : Untouched d₀ d) : Safe d₀ c d := by
  intro x hx
  unfold Disk.Leaves at hx
  rw [hd.1, hd.2] at hx
  exact .inl hx

theorem Renamed.safe {d : Disk C} (hd : Renamed d₀ c d) : Safe d₀ c d := by
  rintro x ⟨f, hf, hx⟩
  rw [hd.1, hd.2, ← List.cons_append] at hf
  obtain hf | hf := List.mem_append.1 hf
  · exact .inl ⟨f, hf, hx⟩
  · obtain rfl := List.mem_singleton.1 hf
    exact .inr (hx rfl)

/-- The new file is on the disk under the name. -/
def Synced (c : C) (d : Disk C) : Prop := d.entry = ⟨c, true⟩ ∧ d.renamed = []

theorem Synced.leaves_iff {d : Disk C} (hd : Synced c d) (x : C) : d.Leaves x ↔ x = c := by
  unfold Disk.Leaves
  rw [hd.1, hd.2]
  constructor
  · rintro ⟨f, hf, hx⟩
    obtain rfl := List.mem_singleton.1 hf
    exact hx rfl
  · exact fun hx => ⟨_, List.mem_cons_self, fun _ => hx⟩

/-- Until the directory is synced, a crash may bring back what was there before. -/
theorem Renamed.leaves_iff {d : Disk C} (hd : Renamed d₀ c d) (x : C) :
    d.Leaves x ↔ d₀.Leaves x ∨ x = c := by
  refine ⟨hd.safe x, ?_⟩
  unfold Disk.Leaves
  rw [hd.1, hd.2, ← List.cons_append]
  rintro (⟨f, hf, hx⟩ | rfl)
  · exact ⟨f, List.mem_append_left _ hf, hx⟩
  · exact ⟨_, List.mem_append_right _ (List.mem_singleton.2 rfl), fun _ => rfl⟩

theorem Synced.visible {d : Disk C} (hd : Synced c d) : d.visible = c := by
  unfold Disk.visible
  rw [hd.1, hd.2]
  rfl

theorem Renamed.visible {d : Disk C} (hd : Renamed d₀ c d) : d.visible = c := by
  unfold Disk.visible
  rw [hd.2, List.getLastD_concat]

theorem Untouched.visible {d : Disk C} (hd : Untouched d₀ d) : d.visible = d₀.visible := by
  unfold Disk.visible
  rw [hd.1, hd.2]

/-- What a replacement has done when it returns. -/
def Replaced (hasDir : Bool) (d₀ : Disk C) (c : C) (d : Disk C) : Prop :=
  if hasDir then Synced c d else Renamed d₀ c d

theorem Replaced.synced {hasDir : Bool} {d : Disk C} (hd : Replaced hasDir d₀ c d)
    (h : hasDir = true) : Synced c d := by
  unfold Replaced at hd
  rwa [if_pos h] at hd

theorem Replaced.renamed {hasDir : Bool} {d : Disk C} (hd : Replaced hasDir d₀ c d)
    (h : ¬ hasDir = true) : Renamed d₀ c d := by
  unfold Replaced at hd
  rwa [if_neg h] at hd

theorem Replaced.visible {hasDir : Bool} {d : Disk C} (hd : Replaced hasDir d₀ c d) :
    d.visible = c := by
  cases hasDir with
  | true => exact Synced.visible hd
  | false => exact Renamed.visible hd

/-- What a replacement has done when a call is refused. -/
def Stopped (d₀ : Disk C) (c : C) (step : Step) (d : Disk C) : Prop :=
  match step with
  | .openTemp | .writeTemp | .syncTemp | .rename => Untouched d₀ d
  | .openDir | .syncDir => Renamed d₀ c d

/-- A call that is safe, from where it may be refused. -/
theorem safeRun_call {step : Step} {f : Disk C → Disk C} (hstop : ∀ d, P d → Stopped d₀ c step d)
    (hf : ∀ d, P d → Q (f d)) (hsafe : ∀ d, Q d → Safe d₀ c d) :
    Hoare.Triple (SafeRun d₀ c P) (call refuse step f) (fun _ => SafeRun d₀ c Q)
      fun e t => refuse e = true ∧ SafeRun d₀ c (Stopped d₀ c e) t := by
  intro t ht
  unfold call
  cases hr : refuse step with
  | true => exact ⟨hr, ht.mono hstop⟩
  | false =>
    have hQ : Q (f t.disk) := hf t.disk ht.now
    exact ⟨List.forall_mem_append.2 ⟨ht.past, List.forall_mem_singleton.2 (hsafe _ hQ)⟩, hQ⟩

/-- The name is as it was, and this is the temporary. -/
def Writing (d₀ : Disk C) (f : File C) (d : Disk C) : Prop := Untouched d₀ d ∧ d.tmp = some f

theorem Writing.safe {f : File C} {d : Disk C} (hd : Writing d₀ f d) : Safe d₀ c d := hd.1.safe

/-- **What a replacement does**, and that a crash on the way leaves what one before it could have
left, or the new contents. -/
theorem replace_spec {hasDir : Bool} {empty : C} :
    Hoare.Triple (SafeRun d₀ c (Untouched d₀)) (replace refuse hasDir empty c)
      (fun _ => SafeRun d₀ c (Replaced hasDir d₀ c))
      fun e t => refuse e = true ∧ SafeRun d₀ c (Stopped d₀ c e) t := by
  have hopen : ∀ d, Untouched d₀ d → Writing d₀ ⟨empty, false⟩ (d.openTemp empty) :=
    fun d hd => ⟨hd, rfl⟩
  have hwrite : ∀ d, Writing d₀ ⟨empty, false⟩ d → Writing d₀ ⟨c, false⟩ (d.writeTemp c) :=
    fun d hd => ⟨hd.1, congrArg (Option.map _) hd.2⟩
  have hsync : ∀ d, Writing d₀ ⟨c, false⟩ d → Writing d₀ ⟨c, true⟩ d.syncTemp :=
    fun d hd => ⟨hd.1, congrArg (Option.map _) hd.2⟩
  have hrename : ∀ d, Writing d₀ ⟨c, true⟩ d → Renamed d₀ c d.rename := by
    intro d hd
    unfold Disk.rename
    rw [hd.2]
    exact ⟨hd.1.1, congrArg (· ++ [⟨c, true⟩]) hd.1.2⟩
  have hdir : ∀ d, Renamed d₀ c d → Synced c d.syncDir := by
    intro d hd
    unfold Disk.syncDir
    rw [hd.2, List.getLastD_concat]
    exact ⟨rfl, rfl⟩
  refine Hoare.Triple.bind (safeRun_call (fun _ hd => hd) hopen fun _ hd => hd.safe) fun _ => ?_
  refine Hoare.Triple.bind (safeRun_call (fun _ hd => hd.1) hwrite fun _ hd => hd.safe) fun _ => ?_
  refine Hoare.Triple.bind (safeRun_call (fun _ hd => hd.1) hsync fun _ hd => hd.safe) fun _ => ?_
  refine Hoare.Triple.bind (safeRun_call (fun _ hd => hd.1) hrename fun _ hd => hd.safe) fun _ => ?_
  unfold Replaced
  cases hasDir with
  | false => exact fun _ ht => ht
  | true =>
    refine Hoare.Triple.bind (safeRun_call (fun _ hd => hd) (fun _ hd => hd) fun _ hd => hd.safe)
      fun _ => ?_
    exact safeRun_call (fun _ hd => hd) hdir fun d hd x hx => .inr ((hd.leaves_iff x).1 hx)

end Replace
