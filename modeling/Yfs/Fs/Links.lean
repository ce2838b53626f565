import Yfs.Fs.Listing
import Yfs.Fs.Reading

/-! What a symbolic link is afterwards.

`symlink` makes a file, writes the target to it and sets its mode. The file then contains
the target (`symlink_links`), and the queries of the client see a link and nothing else:
`lookup` finds its number by the name, `issym` accepts it where `isfile` and `isdir` do not,
and `readlink` returns the target (`symlink_readlink`). -/
namespace Yfs.Fs
open Yfs.Base
open Function (update update_of_ne update_self)

/-! ### Queries -/

section
variable {v : Vol} {i : Nat}

theorem Gives.hasMode (mode : Nat) (hi : v.Has i) :
    Gives [] v (hasMode i mode) (decide ((v.block i).mode = mode)) v := by
  refine Does.withLock List.not_mem_nil (Does.bind (Does.uninit fun buf => ?_))
  have hH := offBitmap_singleton hi.data
  exact (Gives.safeGet hH hi (.inl rfl)).bind (Gives.pure _)

theorem Gives.issym (hi : v.Has i) : Gives [] v (issym i) (decide ((v.block i).mode = 2)) v := by
  have hH := offBitmap_singleton hi.data
  rw [Fs.issym]
  refine Does.bind (Does.uninit fun buf w hw hv => ?_)
  refine .bind (.call (World.answer_acquire hw List.not_mem_nil) (.bind ?_))
  refine (Gives.get hH hi { w with held := [i] } rfl hv).mono ?_
  rintro _ w' ⟨hheld, rfl, hv'⟩
  rw [if_neg fun hne => hne rfl]
  exact .bind (.call (World.answer_release hheld) (.pure ⟨rfl, rfl, hv'⟩))

/-- `readlink` returns what the file contains, and at most writes the time of the access. -/
theorem Contains.readlink {fs : Tree} {ns : Nodes Nat} {c : Sparse Byte} (hc : Contains v i ns c)
    (h : Rep v fs) (ho : fs i = some (.file ns)) : Does [] v (readlink i) fun r v' => r = (.ok, c.toList) ∧
      (v' = v ∨ ∃ now, v' = v.write i ((v.block i).setAtime now)) := by
  have hl := locks_self h ho
  have hfile := h.laid.fileAt ho
  rw [Fs.readlink]
  refine Does.withLock List.not_mem_nil (Does.bind (Does.uninit fun buf => ?_))
  refine (hfile.safeGet hl (h.laid.head_mem ho)).bind ?_
  dsimp only
  rw [if_neg (fun he => by cases he), if_neg (fun hne => hne rfl), hc.size]
  by_cases h0 : c.size = 0
  · have hnil : c.toList = [] := List.eq_nil_of_length_eq_zero (by rw [c.length_toList, h0])
    rw [h0, innerRead, if_pos rfl, hnil]
    exact Does.pure ⟨rfl, .inl rfl⟩
  · refine (hfile.innerRead (o := 0) (h.laid.shows ho).2.2.2 hl (Nat.pos_of_ne_zero h0)).mono ?_
    rintro _ _ ⟨rfl, htime⟩
    refine ⟨?_, .inr htime⟩
    rw [List.drop_zero, hc.size, Nat.zero_div, Nat.mul_zero, Nat.sub_zero, Nat.min_self,
      ← hc.content h ho, hfile.content,
      hc.size]

end

/-! ### `symlink` -/

section
variable {v : Vol} {fs : Tree} {p ino : Nat} {ns : Nodes Entry} {name link : List Byte}

/-- **What `symlink` makes**: a file that contains the target, with the mode of a link, and an
entry for it. The blocks of other files and directories are left alone. -/
theorem symlink_links (h : Rep v fs) (ho : fs p = some (.dir ns)) (hlen : name.length ≤ 63)
    (hno : ∀ e ∈ itemsOf ns, e.1 ≠ cStr name)
    (hfree : roomCost ns + 1 + taken 1 0 (lastBlock 0 link.length) ≤ v.free) :
    Does [] v (symlink p name link ino) fun r v' => ∃ i nsf ns', r = (.ok, i) ∧ i ≠ p ∧ fs i = none ∧
      Rep v' (update (update fs i (some (.file nsf))) p (some (.dir ns'))) ∧
      (itemsOf ns').Perm ((cStr name, i) :: itemsOf ns) ∧
      Contains v' i nsf (Sparse.empty.write 0 link) ∧ (v'.block i).mode = 2 ∧
      ∀ b, v.used b = true → b ∉ nodesOf ns → v'.block b = v.block b := by
  refine (symlink_stores h ho hlen hno hfree).mono ?_
  rintro _ _ ⟨i, v₁, ns₁, v₂, nsf, g, rfl, hm, hfree₁, hst, hitems, hzero, rfl⟩
  have hp := h.used_dir ho
  have hip := hm.ne hp
  obtain ⟨hrep, -⟩ := hm.stored hp hst
  have hunused := hm.fresh
  have hnone : fs i = none := h.laid.none_of_not_owned fun hown =>
    Vol.ne_of_used (h.laid.owned_has hown).used hunused rfl
  have ho₁ : update (update fs i (some (Obj.file [(i, [])]))) p (some (.dir ns₁)) i =
      some (.file [(i, [])]) := by
    rw [update_of_ne hip, update_self]
  have hc := (Contains.new hm.blank.size).stored hm.rep ho₁ (Int.le_refl 0) (Nat.le_refl _) hfree₁ hst
    (hitems.trans (Nat.max_eq_right (Nat.zero_le _)).symm) hzero
  rw [List.take_length] at hc
  refine ⟨i, nsf, ns₁, rfl, hip, hnone, hrep, hm.entries, ?_, ?_, fun b hb hn => ?_⟩
  · exact hc.retouch hst.rep (update_self ..) (by simp)
  · rw [Vol.write_block_self, Block.mode_setMode]
    rfl
  · obtain ⟨hb₁, hused₁⟩ := hm.frame b hb hn
    have hbi : b ≠ i := Vol.ne_of_used hb hunused
    have hnot : b ∉ (Obj.file [(i, [])]).blocks := fun hmem => hbi (List.mem_singleton.mp hmem)
    rw [Vol.write_block_ne hbi, hst.block_eq hused₁ hnot, hb₁]

/-- **A symbolic link leads to its target.** After `symlink`, the name leads to the number it
returned, which is a link and neither a file nor a directory, and `readlink` returns the
target. Every other file and directory is as it was, and the directory has one more entry. -/
theorem symlink_readlink (h : Rep v fs) (ho : fs p = some (.dir ns)) (hlen : name.length ≤ 63)
    (hno : ∀ e ∈ itemsOf ns, e.1 ≠ cStr name)
    (hfree : roomCost ns + 1 + taken 1 0 (lastBlock 0 link.length) ≤ v.free) :
    Does [] v (symlink p name link ino) fun r v' => r.1 = .ok ∧
      Does [] v' (lookup p name) (fun i _ => i = r.2) ∧
      Does [] v' (issym r.2) (fun x _ => x = true) ∧
      Does [] v' (isfile r.2) (fun x _ => x = false) ∧
      Does [] v' (isdir r.2) (fun x _ => x = false) ∧
      Does [] v' (readlink r.2) (fun x _ => x = (.ok, link)) ∧
      ∃ nsf ns', Rep v' (update (update fs r.2 (some (.file nsf))) p (some (.dir ns'))) ∧
        (itemsOf ns').Perm ((cStr name, r.2) :: itemsOf ns) ∧ fs r.2 = none ∧
        ∀ j o, j ≠ p → fs j = some o → ∀ b ∈ o.blocks, v'.block b = v.block b := by
  refine (symlink_links h ho hlen hno hfree).mono ?_
  rintro _ v' ⟨i, nsf, ns', rfl, hip, hnone, hrep, hentries, hc, hmode, hframe⟩
  have hi : update (update fs i (some (Obj.file nsf))) p (some (.dir ns')) i = some (.file nsf) := by
    rw [update_of_ne hip, update_self]
  have hhas := hrep.laid.has hi (hrep.laid.head_mem hi)
  refine ⟨rfl, ?_, ?_, ?_, ?_, ?_, nsf, ns', hrep, hentries, hnone, fun j o hj hjo b hb => ?_⟩
  · refine (lookup_does hrep (update_self ..) (validName_cStr hlen).comparable).mono ?_
    rintro r _ ⟨-, ⟨-, hnot⟩ | hmem⟩
    · exact absurd rfl (hnot (cStr name, i) (hentries.mem_iff.mpr List.mem_cons_self))
    · cases List.mem_cons.mp (hentries.mem_iff.mp hmem) with
      | inl heq => exact congrArg Prod.snd heq
      | inr hold => exact absurd rfl (hno _ hold)
  · refine (Gives.issym hhas).mono ?_
    rintro _ _ ⟨rfl, -⟩
    exact decide_eq_true hmode
  · refine (Gives.hasMode 1 hhas).mono ?_
    rintro _ _ ⟨rfl, -⟩
    rw [hmode]
    rfl
  · refine (Gives.hasMode 0 hhas).mono ?_
    rintro _ _ ⟨rfl, -⟩
    rw [hmode]
    rfl
  · rw [← Sparse.toList_write_empty link]
    exact (hc.readlink hrep hi).mono fun _ _ hx => hx.1
  · refine hframe b (h.laid.has hjo hb).used fun hn => hj ?_
    exact h.laid.apart hjo ho hb (Obj.mem_blocks_of_node hn)

/-- A link in the root of a new disk. -/
theorem symlink_readlink_root :
    Does [] (volOf (format still.disk)) (symlink 1 [108] [116, 117] 0) fun r v' => r.1 = .ok ∧
      Does [] v' (lookup 1 [108]) (fun i _ => i = r.2) ∧ Does [] v' (readlink r.2)
        (fun x _ => x = (.ok, [116, 117])) := by
  have hfree : 100 ≤ (volOf (format still.disk)).free := format_blank_free
  refine (@symlink_readlink _ rootOnly 1 0 [(1, [])] [108] [116, 117] rep_format rfl (by decide) nofun
    (Nat.le_trans (by decide) hfree)).mono ?_
  rintro r v' ⟨hr, hlookup, -, -, -, hread, -⟩
  exact ⟨hr, hlookup, hread⟩

end
end Yfs.Fs
