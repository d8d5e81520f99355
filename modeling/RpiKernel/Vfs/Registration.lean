import RpiKernel.Lib.Slots
import RpiKernel.Vfs.Registry

/-!
# RpiKernel.Vfs.Registration

Any run of `register_filesystem` and `register_dev`, and whatever else the kernel does in
between.

The two functions are the same scan, and have the same bound, which is that of `reg_fs`.  For `reg_dev`
it is five times the length of the table: when that is full, `register_dev` goes on through the
memory behind it, and takes what looks like an entry without `open` (`registers_iff`).
-/

namespace RpiKernel

/-- `MAX_DEV_REG`. -/
def maxDevReg : Nat := 0x10

/-- `struct file_operations`: the addresses of the functions, where 0 is `NULL`. -/
structure FileOperations where
  write : Nat
  read : Nat
  «open» : Nat
  close : Nat
  lseek64 : Nat
  getsize : Nat
  deriving DecidableEq

/-- `reg_fs` and `reg_dev`.  From index `MAX_DEV_REG` on, `regDev` is the memory behind the
table. -/
structure Registries where
  regFs : Registry
  regDev : Nat → FileOperations

namespace Registries

/-! ## the code -/

/-- `register_dev`: the value returned and `reg_dev`. -/
def registerDev (regDev : Nat → FileOperations) (fo : FileOperations) : Int × (Nat → FileOperations) :=
  Slots.take (fun entry => entry.open = 0) regDev fo (List.range maxFsReg)

/-- Calls to the two functions; `elsewhere` is any store that the kernel makes behind `reg_dev`. -/
inductive Call
  | filesystem (fs : Filesystem)
  | dev (fo : FileOperations)
  | elsewhere (behind : Nat → FileOperations)

/-- One call: the value returned and the tables. -/
def call (s : Registries) : Call → Int × Registries
  | .filesystem fs =>
      let (id, regFs) := s.regFs.registerFilesystem fs
      (id, { s with regFs := regFs })
  | .dev fo =>
      let (id, regDev) := registerDev s.regDev fo
      (id, { s with regDev := regDev })
  | .elsewhere behind =>
      (0, { s with regDev := fun i => if i < maxDevReg then s.regDev i else behind i })

/-- `reg_fs` as a table of `MAX_FS_REG` entries. -/
def fsTable : Slots.Table Registries Call (Option Filesystem) where
  step := call
  entry := regFs
  size := maxFsReg
  free := fun entry => entry = none
  puts := fun
    | .filesystem fs => some (some fs)
    | _ => none

/-- `reg_dev` as a table of `MAX_DEV_REG` entries. -/
def devTable : Slots.Table Registries Call FileOperations where
  step := call
  entry := regDev
  size := maxDevReg
  free := fun entry => entry.open = 0
  puts := fun
    | .dev fo => some fo
    | _ => none

/-- The state after calls, one after the other. -/
def after (s : Registries) (calls : List Call) : Registries :=
  calls.foldl (fun s c => (s.call c).2) s

/-- Every device has an `open`. -/
def HaveOpen (calls : List Call) : Prop := ∀ fo, .dev fo ∈ calls → fo.open ≠ 0

/-- Whenever `register_dev` finds `reg_dev` full, nothing looks like a free entry behind it,
up to the bound of the scan. -/
def NothingBehind (s : Registries) (calls : List Call) : Prop :=
  ∀ pre fo post, calls = pre ++ .dev fo :: post → devTable.Full (s.after pre) →
    ∀ i, maxDevReg ≤ i → i < maxFsReg → ((s.after pre).regDev i).open ≠ 0

/-! ## one call -/

variable {s : Registries} {calls : List Call} {fo : FileOperations}

/-- The scan of `register_filesystem`. -/
theorem registerLoop_eq_take (regFs : Registry) (fs : Filesystem) (is : List Nat) :
    Registry.registerLoop regFs fs is = Slots.take (fun entry => entry = none) regFs (some fs) is := by
  induction is with
  | nil => rfl
  | cons i is ih =>
      unfold Registry.registerLoop Slots.take
      cases hi : regFs i with
      | none => simp
      | some fs' => simp [ih]

/-- No call does anything to `reg_fs` but take a free entry. -/
theorem fsTable_takes (s : Registries) (c : Call) : fsTable.Takes s c := by
  cases c with
  | dev => exact fun _ _ => rfl
  | elsewhere => exact fun _ _ => rfl
  | filesystem fs =>
      have hscan := Slots.take_range (fun entry => entry = none) s.regFs (some fs) maxFsReg
      rw [← registerLoop_eq_take] at hscan
      cases hscan with
      | inl htaken =>
          obtain ⟨i, hi, hfree, -, htake⟩ := htaken
          refine .inr ⟨i, hi, hfree, ?_, fun j _ => ?_⟩ <;>
            simp [fsTable, call, Registry.registerFilesystem, htake]
      | inr hfull =>
          refine .inl ⟨hfull.1, ?_⟩
          simp [fsTable, call, Registry.registerFilesystem, hfull.2]

/-- `register_dev`: the first free entry is taken, in the table or behind it, or there is none. -/
theorem registerDev_cases (s : Registries) (fo : FileOperations) :
    (∃ i < maxFsReg, (s.regDev i).open = 0 ∧ (∀ j < i, (s.regDev j).open ≠ 0) ∧
      s.call (.dev fo) = ((i : Int), { s with regDev := Function.update s.regDev i fo })) ∨
    (∀ i < maxFsReg, (s.regDev i).open ≠ 0) ∧ s.call (.dev fo) = (-1, s) := by
  unfold call registerDev
  cases Slots.take_range (fun entry : FileOperations => entry.open = 0) s.regDev fo maxFsReg with
  | inl htaken =>
      obtain ⟨i, hi, hfree, hbefore, htake⟩ := htaken
      exact .inl ⟨i, hi, hfree, hbefore, by simp [htake]⟩
  | inr hfull => exact .inr ⟨hfull.1, by simp [hfull.2]⟩

/-- `register_dev` takes a free entry of the table or finds it full, when nothing behind it looks
free. -/
theorem devTable_takes
    (h : devTable.Full s → ∀ i, maxDevReg ≤ i → i < maxFsReg → (s.regDev i).open ≠ 0) :
    devTable.Takes s (.dev fo) := by
  cases registerDev_cases s fo with
  | inl htaken =>
      obtain ⟨i, hi, hfree, hbefore, hcall⟩ := htaken
      rcases Nat.lt_or_ge i maxDevReg with hlt | hge
      · refine .inr ⟨i, hlt, hfree, ?_, fun j _ => ?_⟩ <;> simp [devTable, hcall]
      · have hfull : devTable.Full s := fun j hj => hbefore j (Nat.lt_of_lt_of_le hj hge)
        exact absurd hfree (h hfull i hge hi)
  | inr hfull =>
      exact .inl ⟨fun i hi => hfull.1 i (Nat.lt_trans hi (by decide)), hfull.2⟩

/-- When something looks free behind a full table, the value returned is no index of the table. -/
theorem not_answers (hfull : devTable.Full s) {i : Nat} (hi : i < maxFsReg) (hfree : (s.regDev i).open = 0) :
    ¬ devTable.Answers s (.dev fo) := by
  intro h
  have hcall : s.call (.dev fo) = (-1, s) := h.1 hfull
  cases registerDev_cases s fo with
  | inl htaken =>
      obtain ⟨j, -, -, -, hj⟩ := htaken
      rw [hcall] at hj
      have hid : (-1 : Int) = j := congrArg Prod.fst hj
      omega
  | inr hnone => exact hnone.1 i hi hfree

/-- Every call changes one entry of `reg_dev` at most. -/
theorem devTable_oneEach : devTable.OneEach := by
  intro s c
  cases c with
  | filesystem fs => exact ⟨0, fun j _ _ => rfl⟩
  | elsewhere behind => exact ⟨0, fun j hj _ => if_pos hj⟩
  | dev fo =>
      cases registerDev_cases s fo with
      | inl htaken =>
          obtain ⟨i, -, -, -, hcall⟩ := htaken
          refine ⟨i, fun j _ hj => ?_⟩
          simp only [devTable, hcall, reduceCtorEq, or_false] at hj ⊢
          exact Function.update_of_ne hj ..
      | inr hnone => exact ⟨0, fun j _ _ => by simp [devTable, hnone.2]⟩

/-! ## runs -/

/-- Both tables, when nothing behind `reg_dev` looks free. -/
theorem registers_of_nothingBehind (hopen : HaveOpen calls) (h : NothingBehind s calls) :
    fsTable.Registers s calls ∧ devTable.Registers s calls := by
  refine ⟨Slots.Table.registers_of_takes ?_ fun pre c post _ => fsTable_takes _ c,
    Slots.Table.registers_of_takes ?_ fun pre c post he => ?_⟩
  · intro c _ x hputs
    cases c with
    | filesystem fs => simp [fsTable, ← Option.some.inj hputs]
    | dev | elsewhere => simp [fsTable] at hputs
  · intro c hc x hputs
    cases c with
    | dev fo => exact Option.some.inj hputs ▸ hopen fo hc
    | filesystem | elsewhere => simp [devTable] at hputs
  · cases c with
    | dev fo => exact devTable_takes (h pre fo post he)
    | filesystem fs => exact fun _ _ => rfl
    | elsewhere behind => exact fun i hi => if_pos hi

/-- **Registering.**  From any tables, ids are valid and distinct, entries stay, and a full table gives
-1 and no change, if and only if nothing looks like a free entry behind `reg_dev` whenever
`register_dev` is called and the table is full. -/
theorem registers_iff (s : Registries) (hopen : HaveOpen calls) :
    fsTable.Registers s calls ∧ devTable.Registers s calls ↔ NothingBehind s calls := by
  refine ⟨fun h pre fo post he hfull i _ hi hfree => ?_, registers_of_nothingBehind hopen⟩
  exact not_answers hfull hi hfree (h.2.answers pre (.dev fo) post fo he rfl)

/-- From an empty `reg_dev`, the first `MAX_DEV_REG` calls meet the condition. -/
theorem nothingBehind_of_few (hs : ∀ i < maxDevReg, (s.regDev i).open = 0)
    (hfew : (calls.filterMap devTable.puts).length ≤ maxDevReg) : NothingBehind s calls := by
  intro pre fo post he hfull
  have hle : maxDevReg ≤ (pre.filterMap devTable.puts).length :=
    Slots.Table.size_le_of_full devTable_oneEach hs hfull
  have hputs : devTable.puts (.dev fo) = some fo := rfl
  have hcount : (calls.filterMap devTable.puts).length =
      (pre.filterMap devTable.puts).length + ((post.filterMap devTable.puts).length + 1) := by
    rw [he, List.filterMap_append, List.length_append, List.filterMap_cons_some hputs, List.length_cons]
  omega

/-- The tables at boot, with nothing but zeros behind them. -/
def zeroTables : Registries := ⟨fun _ => none, fun _ => ⟨0, 0, 0, 0, 0, 0⟩⟩

/-- A device. -/
def someDev : FileOperations := ⟨1, 1, 1, 1, 1, 1⟩

/-- The file systems and the two devices of `init_rootfs`. -/
theorem registers_iff_boot :
    let calls := Registry.bootFilesystems.map .filesystem ++ [.dev someDev, .dev someDev]
    fsTable.Registers zeroTables calls ∧ devTable.Registers zeroTables calls := by
  have hopen : HaveOpen (Registry.bootFilesystems.map .filesystem ++ [.dev someDev, .dev someDev]) := by
    intro fo hfo
    simp [Registry.bootFilesystems] at hfo
    subst hfo
    decide
  exact (registers_iff zeroTables hopen).2 (nothingBehind_of_few (fun _ _ => rfl) (by decide))

/-- **The seventeenth device** gets the id 16, which is no index of `reg_dev`. -/
theorem registerDev_seventeenth :
    (call (zeroTables.after (List.replicate 16 (.dev someDev))) (.dev someDev)).1 = 16 ∧
      ¬ devTable.Registers zeroTables (List.replicate 17 (.dev someDev)) := by
  have hid : (call (zeroTables.after (List.replicate 16 (.dev someDev))) (.dev someDev)).1 = 16 := by
    decide +kernel
  refine ⟨hid, fun h => ?_⟩
  have hanswer := h.answers (List.replicate 16 (.dev someDev)) (.dev someDev) [] someDev rfl rfl
  by_cases hfull : devTable.Full (zeroTables.after (List.replicate 16 (.dev someDev)))
  · have hcall := congrArg Prod.fst (hanswer.1 hfull)
    exact absurd (hid.symm.trans hcall) (by decide)
  · obtain ⟨i, hi, hcall⟩ := hanswer.2 hfull
    have hi16 : (16 : Int) = i := hid.symm.trans hcall
    have hlt : i < 16 := hi
    omega

end Registries

end RpiKernel
