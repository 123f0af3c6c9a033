import MemoryEncryption.Verif.Plaintext

/-!
# `exec` is safe, and all or nothing

Whatever bytes a file holds, `exec` of it returns: no check that it leaves out can
lead to one of the panics of `mappages`, `loaduvm` or `clearpteu`. If it returns -1,
the process is as it was, and the frames that the new image had taken are free
again. The clock queue of the caller must not point into the new page table, where
`deallocuvm` would remove what it finds.
-/

namespace MemoryEncryption

variable {σ : Type} {image : Image} {m m' : Mem σ} {own own' : Nat → Owner}

/-- When every address space is kept, and no frame changes its kind, the same frames are free. -/
theorem Apart.free_iff (apart : ∀ e, Apart e m own m' own') (owned : Owned image m own)
    (owned' : Owned image m' own') (kind : kinds own' = kinds own) (f : Nat) :
    own' f = .free ↔ own f = .free := by
  have same := congrFun kind f
  have lives : ∀ {d : Nat}, own' d = .dir → own d = .dir := by
    intro d live
    have dir := congrFun kind d
    rwa [kinds_dir.mpr live, eq_comm, kinds_dir] at dir
  constructor
  · intro free
    have kept : ∀ {d : Nat}, space own f ≠ some d := by
      intro d part
      have label := (apart (d + 1) f d part (by omega)).1
      rw [free] at label
      simp [space, ← label] at part
    cases label : own f with
    | free => rfl
    | table d i | user d v => exact absurd (by simp [space, label]) (kept (d := d))
    | dir | outside | held | kstack slot | pipe => simp [kinds, free, label, Owner.kind] at same
  · intro free
    cases label : own' f with
    | free => rfl
    | table d i =>
      obtain ⟨live, bound, found⟩ := owned'.tableBack d i f label
      obtain ⟨-, addresses, -⟩ := (apart (d + 1)).lookups owned (lives live) (by omega)
      have page : i * 1024 / 1024 = i := Nat.mul_div_cancel i (by decide)
      have address : pteAt m d (i * 1024) = some ⟨f, i * 1024 % 1024⟩ := by
        rw [← addresses, pteAt, page, found]
        rfl
      have before := (owned.pteAt_table (lives live) (by omega) address).1
      rw [free] at before
      cases before
    | user d v =>
      obtain ⟨live, bound, isMapped, frame⟩ := owned'.userBack d v f label
      obtain ⟨-, -, entries, -⟩ := (apart (d + 1)).lookups owned (lives live) (by omega)
      rw [entries v (page_lt bound)] at isMapped frame
      have before := owned.user d v (lives live) bound isMapped
      rw [frame, free] at before
      cases before
    | dir | outside | held | kstack slot | pipe => simp [kinds, free, label, Owner.kind] at same

/-- The machine is as it was, as far as processes and frames go. -/
structure Undisturbed (image : Image) (managed : Nat → Prop) (s final : Machine σ) : Prop where
  /-- Every process has its page table, size, trap frame, name and queue. -/
  procs : final.proc = s.proc
  /-- Every page table has its entries. -/
  entries : ∀ q v, HasSpace s.proc q → v < 2 ^ 20 →
    entry final.mem (s.proc q).pgdir v = entry s.mem (s.proc q).pgdir v
  /-- Every page has its plaintext. -/
  plaintexts : ∀ q v, HasSpace s.proc q → v < userPages →
    mapped (entry s.mem (s.proc q).pgdir v) = true →
    plaintext final.mem (s.proc q).pgdir v = plaintext s.mem (s.proc q).pgdir v
  /-- The free frames are free again. -/
  free : final.mem.freelist.Perm s.mem.freelist
  /-- Every managed frame is in one place. -/
  consistent : Consistent image managed final

/-- No slot of the queue points to an entry of the user pages of an address space. -/
def PointsElsewhere (queue : Queue PteAddr) (m : Mem (Queue PteAddr)) (d : Nat) : Prop :=
  ∀ i < clockSize, ∀ v < userPages, ∀ pte, pteAt m d v = some pte → (queue.slot i).pte ≠ some pte

/-- `exec` of any file returns, when the bytes of the arguments are fewer than those of the new
image and no slot of the queue points into the new page table; and if it returns -1, it has changed
nothing. -/
theorem exec_all_or_nothing (image : Image) (managed : Nat → Prop) (s : Machine (Queue PteAddr))
    (p : Nat) (file path : List (BitVec 8)) (argv : List (List (BitVec 8)))
    (start : Consistent image managed s) (ready : s.ready p = true)
    (fits : ∀ size, imageSize file = some size → (argv.map List.length).sum < size)
    (loose : ∀ d now,
      newSpace image clockOps.steady (s.load p) file argv = .ok (some d, none, now) →
      PointsElsewhere (s.proc p).queue now d) :
    ∃ done final, exec image clockOps s p (some file) path argv = .ok (done, final) ∧
      (done = false → Undisturbed image managed s final) := by
  obtain ⟨sane, inside⟩ := start.sane
  have member := hasSpace_of_ready ready
  have quiet : ∀ d now,
      newSpace image clockOps.steady (s.load p) file argv = .ok (some d, none, now) →
      QuietOn clockOps (s.load p).queue now d 0 userPages := by
    intro d now reached v pte _ bound found
    exact cqRemove_absent fun i slot => loose d now reached i slot v bound pte found
  obtain ⟨outcome, returns⟩ := loadImage_outcome clockOps (sane.load p) quiet
  obtain ⟨⟨loaded, m₁⟩, loading⟩ := returns fits
  cases loaded with
  | some program =>
    obtain ⟨final, own', returned, -⟩ := exec_loaded clockOps sane member cqInit_remove loading path
    exact ⟨true, final, returned, by simp⟩
  | none =>
    obtain ⟨-, own', owned, apart, queue, kind⟩ := (outcome none m₁ loading).resolve_right (by simp)
    refine ⟨false, s.setMem m₁, ?_, fun _ => ?_⟩
    · rw [exec, loading, Outcome.ok_bind]
      show Except.ok (false, s.save p m₁) = _
      rw [save_eq queue]
    · have undone : Undone s (labels s) (s.setMem m₁) own' := ⟨kind, fun _ _ => rfl, fun _ => .rfl⟩
      have sane' := undone.sane sane owned apart rfl rfl
      refine ⟨rfl, ?_, ?_, ?_, ?_⟩
      · intro q v memberQ bound
        exact ((apart _).lookups (sane.load p) (sane.live memberQ)
          (Nat.ne_of_lt (Nat.lt_succ_self _))).2.2.1 v bound
      · intro q v memberQ bound isMapped
        exact ((apart _).carries_page (sane.load p) (sane.live memberQ)
          (Nat.ne_of_lt (Nat.lt_succ_self _)) bound isMapped).2.2
      · apply (List.perm_ext_iff_of_nodup owned.nodup sane.owned.nodup).mpr
        intro f
        rw [owned.free f, sane.owned.free f]
        exact Apart.free_iff apart (sane.load p) owned kind f
      · have managed' : managed = fun f => own' f ≠ .outside := by
          funext f
          rw [inside f, ne_eq, ne_eq, ← kinds_outside, ← kinds_outside, kind]
        rw [managed']
        exact sane'.consistent

/-- An ELF header without segments. -/
def headerOnly : List (BitVec 8) := wordBytes elfMagic ++ List.replicate 48 0

/-- There is a frame for the directory, and none for the page tables of the kernel half. -/
theorem narrowSetup_undisturbed :
    ∃ final, exec sampleImage clockOps narrowSetup.machine 0 (some headerOnly) [] [[97]] =
        .ok (false, final) ∧
      Undisturbed sampleImage (fun f => narrowSetup.own f ≠ .outside) narrowSetup.machine final := by
  have fails : ((exec sampleImage clockOps narrowSetup.machine 0 (some headerOnly) [] [[97]]).map
      Prod.fst).toOption = some false := by decide +kernel
  have nowhere : ((newSpace sampleImage clockOps.steady (narrowSetup.machine.load 0) headerOnly
      [[97]]).map Prod.fst).toOption = some none := by decide +kernel
  obtain ⟨done, final, returned, undisturbed⟩ := exec_all_or_nothing sampleImage _
    narrowSetup.machine 0 headerOnly [] [[97]] narrowSetup.sane.consistent rfl (by decide +kernel)
    (fun d now reached => by
      rw [reached] at nowhere
      cases nowhere)
  have first : done = false := by
    rw [returned] at fails
    exact Option.some.inj fails
  subst first
  exact ⟨final, returned, undisturbed rfl⟩

end MemoryEncryption
