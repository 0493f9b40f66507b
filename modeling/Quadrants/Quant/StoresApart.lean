import Quadrants.Quant.BitStructStore

namespace Quadrants.Quant

open Library.WordFields

variable {L : BitStruct} {fp : FixedPoint}

section Fields

def BitStruct.HasBit (L : BitStruct) (m i : ℕ) : Prop :=
  InField (L.member m).bitOffset (L.member m).numBits i

theorem BitStruct.N_le (L : BitStruct) : L.N ≤ 64 :=
  L.physicalType.N_le

variable {m : ℕ}

variable {a b : BitVec L.N} {i : ℕ}

theorem BitStruct.HasBit.lt (hm : m < L.numMembers) (h : L.HasBit m i) : i < L.N :=
  Nat.lt_of_lt_of_le h.2 (L.fits m hm)

theorem BitStruct.HasBit.unique {m' : ℕ} (hm : m < L.numMembers) (hm' : m' < L.numMembers)
    (h : L.HasBit m i) (h' : L.HasBit m' i) : m = m' := by
  have hle := h.1
  have hlt := h.2
  have hle' := h'.1
  have hlt' := h'.2
  rcases Nat.lt_trichotomy m m' with hlt₁ | heq | hgt
  · have := L.inOrder m' hm' m hlt₁
    omega
  · exact heq
  · have := L.inOrder m hm m' hgt
    omega

theorem extractMember_eq (hm : m < L.numMembers) (word : BitVec L.N) (computeBits : ℕ) :
    extractMember L word m computeBits = readAs (L.member m).qit.isSigned computeBits
      (field word (L.member m).bitOffset (L.member m).numBits) :=
  extractQuantInt_eq (L.one_le_numBits m hm) (L.fits m hm) word _ computeBits

theorem extractMember_congr (hm : m < L.numMembers)
    (h : ∀ i, L.HasBit m i → a.getLsbD i = b.getLsbD i) (computeBits : ℕ) :
    extractMember L a m computeBits = extractMember L b m computeBits := by
  have hfield : field a (L.member m).bitOffset (L.member m).numBits =
      field b (L.member m).bitOffset (L.member m).numBits := by
    apply BitVec.eq_of_getLsbD_eq
    intro k hk
    rw [getLsbD_field, getLsbD_field, h]
    exact ⟨Nat.le_add_right _ _, Nat.add_lt_add_left hk _⟩
  rw [extractMember_eq hm, extractMember_eq hm, hfield]

theorem decode_congr (hm : m < L.numMembers) (h : ∀ i, L.HasBit m i → a.getLsbD i = b.getLsbD i)
    (hexp : ∀ e, (L.member m).exponent = some e → ∀ i, L.HasBit e i → a.getLsbD i = b.getLsbD i) :
    decode L fp a m = decode L fp b m := by
  have hread := extractMember_congr hm h
  rw [decode, decode]
  rcases hkind : (L.member m).kind with _ | _ | _
  · rw [hread]
  · rw [hread]
  · rcases he : (L.member m).exponent with _ | e
    · rw [hread]
    · have hexponent := extractMember_congr (L.exponent_type m hm e he).1 (hexp e he) 32
      have hfloat : extractQuantFloat L a m e = extractQuantFloat L b m e := by
        rw [extractQuantFloat, extractQuantFloat, hread, hexponent]
      exact congrArg (BitVec.setWidth 64) hfloat

end Fields

theorem getLsbD_newMask {numBits offset : ℕ} (hbits : 1 ≤ numBits) (hfit : offset + numBits ≤ 64)
    (i : ℕ) :
    ((~~~(0 : BitVec 64) <<< (64 - numBits)) >>> (64 - offset - numBits)).getLsbD i = true ↔
      InField offset numBits i := by
  rw [BitVec.getLsbD_ushiftRight, BitVec.getLsbD_shiftLeft, BitVec.getLsbD_not, InField]
  simp only [BitVec.ofNat_eq_ofNat, BitVec.getLsbD_zero, Bool.not_false, Bool.and_true,
    Bool.and_eq_true, decide_eq_true_eq, Bool.not_eq_true', decide_eq_false_iff_not]
  omega

variable {i : ℕ} {pieces : Pieces L}

theorem storeMask_spec (hlt : ∀ p ∈ pieces, p.1 < L.numMembers)
    (hnodup : (pieces.map (·.1)).Nodup) : ∃ mask, storeMask L pieces = some mask ∧
      ∀ i, mask.getLsbD i = true ↔ ∃ p ∈ pieces, L.HasBit p.1 i := by
  suffices hfold : ∀ start : BitVec 64,
      (∀ i, start.getLsbD i = true → ∀ p ∈ pieces, ¬L.HasBit p.1 i) →
      ∃ mask, pieces.foldlM (fun mask piece =>
          updateMask mask (L.member piece.1).numBits (L.member piece.1).bitOffset) start =
          some mask ∧
        ∀ i, mask.getLsbD i = true ↔ start.getLsbD i = true ∨ ∃ p ∈ pieces, L.HasBit p.1 i by
    obtain ⟨mask, hmask, hbits⟩ := hfold 0 (by simp)
    refine ⟨mask, hmask, fun i => (hbits i).trans ?_⟩
    simp
  induction pieces with
  | nil =>
    simp
  | cons p pieces ih =>
    intro start hstart
    obtain ⟨hp, hrest⟩ := List.forall_mem_cons.1 hlt
    obtain ⟨hnew, hnodup'⟩ := List.nodup_cons.1 hnodup
    have hfits : (L.member p.1).bitOffset + (L.member p.1).numBits ≤ 64 :=
      Nat.le_trans (L.fits p.1 hp) L.N_le
    obtain ⟨newMask, hdef⟩ : ∃ newMask, (~~~(0 : BitVec 64) <<< (64 - (L.member p.1).numBits)) >>>
      (64 - (L.member p.1).bitOffset - (L.member p.1).numBits) = newMask := ⟨_, rfl⟩
    have hbit : ∀ i, newMask.getLsbD i = true ↔ L.HasBit p.1 i := fun i =>
      hdef ▸ getLsbD_newMask (L.one_le_numBits p.1 hp) hfits i
    have hzero : start &&& newMask = 0 := by
      apply BitVec.eq_of_getLsbD_eq
      intro i _
      rw [BitVec.getLsbD_and, BitVec.ofNat_eq_ofNat, BitVec.getLsbD_zero, Bool.and_eq_false_iff]
      rcases hs : start.getLsbD i with _ | _
      · exact Or.inl rfl
      · right
        rw [← Bool.not_eq_true, hbit]
        exact hstart i hs p List.mem_cons_self
    have hupdate : updateMask start (L.member p.1).numBits (L.member p.1).bitOffset =
        some (start ||| newMask) := by
      rw [updateMask, hdef]
      exact if_pos hzero
    obtain ⟨mask, hmask, hbits⟩ := ih hrest hnodup' (start ||| newMask) (by
      intro i hi q hq hhas
      rw [BitVec.getLsbD_or, Bool.or_eq_true, hbit] at hi
      rcases hi with hi | hi
      · exact hstart i hi q (List.mem_cons_of_mem _ hq) hhas
      · have heq : q.1 = p.1 := hhas.unique (hrest q hq) hp hi
        exact hnew (List.mem_map.2 ⟨q, hq, heq⟩))
    refine ⟨mask, ?_, fun i => ?_⟩
    · rw [List.foldlM_cons, hupdate]
      exact hmask
    · rw [hbits, BitVec.getLsbD_or, Bool.or_eq_true, hbit, List.exists_mem_cons_iff, or_assoc]

theorem getLsbD_bitStructVal (pieces : Pieces L) (hi : i < L.N) :
    (bitStructVal L pieces).getLsbD i = true ↔
      ∃ p ∈ pieces, (L.member p.1).bitOffset ≤ i ∧
        p.2.getLsbD (i - (L.member p.1).bitOffset) = true := by
  suffices hfold : ∀ start : BitVec L.N,
      (pieces.foldl (fun bits (piece : ℕ × BitVec L.N) =>
        bits ||| piece.2 <<< (L.member piece.1).bitOffset) start).getLsbD i = true ↔
      start.getLsbD i = true ∨ ∃ p ∈ pieces, (L.member p.1).bitOffset ≤ i ∧
        p.2.getLsbD (i - (L.member p.1).bitOffset) = true by
    refine (hfold 0).trans ?_
    simp
  induction pieces with
  | nil => simp
  | cons p pieces ih =>
    intro start
    rw [List.foldl_cons, ih, BitVec.getLsbD_or, BitVec.getLsbD_shiftLeft,
      List.exists_mem_cons_iff, ← or_assoc]
    simp [hi]

theorem getLsbD_storeMasked (isAtomic demotion : Bool) (failed : List (BitVec L.N))
    (word value : BitVec L.N) {mask : BitVec 64} (hmask : ∀ i, mask.getLsbD i = true → i < L.N)
    (hi : i < L.N) : (storeMasked L isAtomic demotion failed word mask value).getLsbD i =
      if mask.getLsbD i then value.getLsbD i else word.getLsbD i := by
  have hwide : mask = (mask.setWidth L.N).setWidth 64 := by
    apply BitVec.eq_of_getLsbD_eq
    intro k hk
    rw [BitVec.getLsbD_setWidth, BitVec.getLsbD_setWidth, decide_eq_true hk, Bool.true_and]
    rcases hbit : mask.getLsbD k with _ | _
    · rw [Bool.and_false]
    · rw [decide_eq_true (hmask k hbit), Bool.and_self]
  have hset : (setMask L.N word mask value).getLsbD i =
      if mask.getLsbD i then value.getLsbD i else word.getLsbD i := by
    have hnarrow : (mask.setWidth L.N).getLsbD i = mask.getLsbD i := by
      rw [BitVec.getLsbD_setWidth, decide_eq_true hi, Bool.true_and]
    rw [← hnarrow, ← getLsbD_setMask L.N_le hi, ← hwide]
  simp only [storeMasked]
  by_cases hzero : mask = 0
  · rw [hzero]
    simp
  · rw [if_neg hzero]
    by_cases hfull : (!isAtomic || demotion) = true ∧
        mask &&& ~~~(0 : BitVec 64) >>> (64 - L.N) = ~~~(0 : BitVec 64) >>> (64 - L.N)
    · rw [if_pos hfull, if_pos]
      have hbit := congrArg (fun x => x.getLsbD i) hfull.2
      have hN := L.N_le
      have hones : (~~~(0 : BitVec 64) >>> (64 - L.N)).getLsbD i = true := by
        rw [BitVec.getLsbD_ushiftRight, BitVec.getLsbD_not, BitVec.ofNat_eq_ofNat,
          BitVec.getLsbD_zero, Bool.not_false, Bool.and_true, decide_eq_true_eq]
        omega
      simpa only [BitVec.getLsbD_and, hones, Bool.and_true] using hbit
    · rw [if_neg hfull]
      rcases isAtomic with _ | _
      · exact hset
      · exact (congrArg (fun x => x.getLsbD i) (atomicSetMask_eq failed word mask value)).trans hset

theorem storeMasked_pieces (hlt : ∀ p ∈ pieces, p.1 < L.numMembers)
    (hnodup : (pieces.map (·.1)).Nodup) (isAtomic demotion : Bool) (failed : List (BitVec L.N))
    (word : BitVec L.N) : ∃ mask, storeMask L pieces = some mask ∧ ∀ i < L.N,
      ((∃ p ∈ pieces, L.HasBit p.1 i) →
        (storeMasked L isAtomic demotion failed word mask (bitStructVal L pieces)).getLsbD i =
          (bitStructVal L pieces).getLsbD i) ∧
      ((¬∃ p ∈ pieces, L.HasBit p.1 i) →
        (storeMasked L isAtomic demotion failed word mask (bitStructVal L pieces)).getLsbD i =
          word.getLsbD i) := by
  obtain ⟨mask, hmask, hbits⟩ := storeMask_spec hlt hnodup
  have hinside : ∀ i, mask.getLsbD i = true → i < L.N := by
    intro i hi
    obtain ⟨p, hp, hhas⟩ := (hbits i).1 hi
    exact hhas.lt (hlt p hp)
  refine ⟨mask, hmask, fun i hi => ⟨fun h => ?_, fun h => ?_⟩⟩
  · rw [getLsbD_storeMasked _ _ _ _ _ hinside hi, if_pos ((hbits i).2 h)]
  · rw [getLsbD_storeMasked _ _ _ _ _ hinside hi, if_neg fun hbit => h ((hbits i).1 hbit)]

section Layout

variable {e u : ℕ}

theorem BitStruct.mem_users (L : BitStruct) (he : e < L.numMembers) (u : ℕ) :
    u ∈ (L.member e).exponentUsers ↔ u < L.numMembers ∧ (L.member u).exponent = some e :=
  ⟨L.exponent_of_mem e he u, fun h => L.mem_users_of_exponent u h.1 e h.2⟩

theorem BitStruct.eq_of_private {u' : ℕ} (hu : u < L.numMembers) (hu' : u' < L.numMembers)
    (he : (L.member u).exponent = some e) (he' : (L.member u').exponent = some e)
    (hprivate : L.ownsSharedExponent u = false) : u = u' := by
  have hmem := L.mem_users_of_exponent _ hu _ he
  have hmem' := L.mem_users_of_exponent _ hu' _ he'
  rw [BitStruct.ownsSharedExponent, he, decide_eq_false_iff_not] at hprivate
  rcases hlist : (L.member e).exponentUsers with _ | ⟨x, _ | ⟨y, rest⟩⟩
  · rw [hlist] at hmem
    exact absurd hmem List.not_mem_nil
  · rw [hlist, List.mem_singleton] at hmem hmem'
    rw [hmem, hmem']
  · rw [hlist, List.length_cons, List.length_cons] at hprivate
    omega

theorem BitStruct.exponent_eq_none (he : e < L.numMembers)
    (hmem : u ∈ (L.member e).exponentUsers) : (L.member e).exponent = none := by
  obtain ⟨hu, hexp⟩ := (L.mem_users he u).1 hmem
  have hkind := (L.exponent_type u hu e hexp).2.1
  rcases hown : (L.member e).exponent with _ | e'
  · rfl
  · have hfloat := (L.exponent_iff e he).2 (hown ▸ rfl)
    rw [hkind] at hfloat
    exact absurd hfloat (by decide)

theorem BitStruct.ownsSharedExponent_of_mem (he : e < L.numMembers)
    (hmem : u ∈ (L.member e).exponentUsers) :
    L.ownsSharedExponent u = decide (1 < (L.member e).exponentUsers.length) := by
  rw [BitStruct.ownsSharedExponent, ((L.mem_users he u).1 hmem).2]

end Layout

section Pieces

theorem memberPieces_map_fst {s : ℕ × BitVec 64} (hs : s.1 < L.numMembers) :
    (memberPieces L fp s).map (·.1) = (L.member s.1).exponent.toList ++ [s.1] := by
  have hiff := L.exponent_iff s.1 hs
  rw [memberPieces]
  rcases hkind : (L.member s.1).kind with _ | _ | _ <;>
    rcases hexp : (L.member s.1).exponent with _ | e <;> simp_all

variable {stores : List (ℕ × BitVec 64)}

theorem mem_bitStructPieces {p : ℕ × BitVec L.N} : p ∈ bitStructPieces L fp stores ↔
    ∃ s ∈ stores, L.ownsSharedExponent s.1 = false ∧ p ∈ memberPieces L fp s := by
  simp only [bitStructPieces, List.mem_flatMap]
  refine exists_congr fun s => and_congr_right fun _ => ?_
  rcases L.ownsSharedExponent s.1 with _ | _
  · simp
  · simp

variable {m : ℕ}

variable (fp) in
theorem exists_bitStructPiece (hmember : ∀ s ∈ stores, s.1 < L.numMembers) :
    (∃ p ∈ bitStructPieces L fp stores, p.1 = m) ↔
      ∃ s ∈ stores, L.ownsSharedExponent s.1 = false ∧
        ((L.member s.1).exponent = some m ∨ s.1 = m) := by
  constructor
  · rintro ⟨p, hp, rfl⟩
    obtain ⟨s, hs, hprivate, hps⟩ := mem_bitStructPieces.1 hp
    have hid := List.mem_map_of_mem (f := (·.1)) hps
    rw [memberPieces_map_fst (hmember s hs), List.mem_append, Option.mem_toList,
      List.mem_singleton] at hid
    exact ⟨s, hs, hprivate, hid.imp id Eq.symm⟩
  · rintro ⟨s, hs, hprivate, hid⟩
    have hmem : m ∈ (memberPieces L fp s).map (·.1) := by
      rw [memberPieces_map_fst (hmember s hs), List.mem_append, Option.mem_toList,
        List.mem_singleton]
      exact hid.imp id Eq.symm
    obtain ⟨p, hp, hpm⟩ := List.mem_map.1 hmem
    exact ⟨p, mem_bitStructPieces.2 ⟨s, hs, hprivate, hp⟩, hpm⟩

variable (fp) in
theorem bitStructPieces_lt (hmember : ∀ s ∈ stores, s.1 < L.numMembers) :
    ∀ p ∈ bitStructPieces L fp stores, p.1 < L.numMembers := by
  intro p hp
  obtain ⟨s, hs, _, hid⟩ := (exists_bitStructPiece fp hmember).1 ⟨p, hp, rfl⟩
  rcases hid with hexp | hid
  · exact (L.exponent_type s.1 (hmember s hs) p.1 hexp).1
  · exact hid ▸ hmember s hs

theorem bitStructPieces_nodup (stmt : BitStructStore L) :
    ((bitStructPieces L fp stmt.stores).map (·.1)).Nodup := by
  rw [bitStructPieces, List.map_flatMap, List.nodup_flatMap]
  have hids : ∀ s ∈ stmt.stores, ∀ m,
      m ∈ ((if L.ownsSharedExponent s.1 then [] else memberPieces L fp s).map (·.1)) →
      L.ownsSharedExponent s.1 = false ∧ ((L.member s.1).exponent = some m ∨ m = s.1) := by
    intro s hs m hm
    rcases hshared : L.ownsSharedExponent s.1 with _ | _
    · rw [hshared, if_neg Bool.false_ne_true, memberPieces_map_fst (stmt.isMember s hs).1,
        List.mem_append, Option.mem_toList, List.mem_singleton] at hm
      exact ⟨rfl, hm⟩
    · rw [hshared] at hm
      exact absurd hm List.not_mem_nil
  have hnot : ∀ s ∈ stmt.stores, ∀ s' ∈ stmt.stores, (L.member s.1).exponent ≠ some s'.1 := by
    intro s hs s' hs' hexp
    have hmem := L.mem_users_of_exponent _ (stmt.isMember s hs).1 _ hexp
    rw [(stmt.isMember s' hs').2] at hmem
    exact List.not_mem_nil hmem
  constructor
  · intro s hs
    split_ifs
    · exact List.nodup_nil
    · rw [memberPieces_map_fst (stmt.isMember s hs).1]
      rcases hexp : (L.member s.1).exponent with _ | e
      · exact List.nodup_singleton _
      · refine List.nodup_cons.2 ⟨?_, List.nodup_singleton _⟩
        intro hmem
        have heq : e = s.1 := List.mem_singleton.1 hmem
        exact hnot s hs s hs (heq ▸ hexp)
  · refine (List.pairwise_map.1 stmt.nodup).imp_of_mem fun {s s'} hs hs' hne => ?_
    intro m hm hm'
    obtain ⟨hprivate, hid⟩ := hids s hs m hm
    obtain ⟨_, hid'⟩ := hids s' hs' m hm'
    rcases hid with hexp | rfl
    · rcases hid' with hexp' | rfl
      · exact hne (L.eq_of_private (stmt.isMember s hs).1 (stmt.isMember s' hs').1 hexp hexp'
          hprivate)
      · exact hnot s hs s' hs' hexp
    · rcases hid' with hexp' | heq
      · exact hnot s' hs' s hs hexp'
      · exact hne heq

variable (word : BitVec L.N)

variable (stores) in
theorem groupPieces_map_fst (i : ℕ) :
    (groupPieces L stores word i).map (·.1) = i :: (L.member i).exponentUsers := by
  simp [groupPieces, Function.comp_def]

variable (stores) in
theorem exists_sharedPiece : (∃ p ∈ sharedPieces L stores word, p.1 = m) ↔
      ∃ i < L.numMembers, 2 ≤ (L.member i).exponentUsers.length ∧
        (m = i ∨ m ∈ (L.member i).exponentUsers) := by
  have hgroup : ∀ i, (∃ p ∈ (if (L.member i).exponentUsers.length < 2 then []
      else groupPieces L stores word i), p.1 = m) ↔
      2 ≤ (L.member i).exponentUsers.length ∧ (m = i ∨ m ∈ (L.member i).exponentUsers) := by
    intro i
    rw [← List.mem_cons, ← groupPieces_map_fst stores word i, List.mem_map]
    split_ifs with hlen
    · simp [hlen]
    · exact (and_iff_right (Nat.not_lt.1 hlen)).symm
  simp only [sharedPieces, List.mem_flatMap, List.mem_range, ← hgroup]
  constructor
  · rintro ⟨p, ⟨i, hi, hp⟩, hpm⟩
    exact ⟨i, hi, p, hp, hpm⟩
  · rintro ⟨i, hi, p, hp, hpm⟩
    exact ⟨p, ⟨i, hi, hp⟩, hpm⟩

theorem sharedPieces_lt : ∀ p ∈ sharedPieces L stores word, p.1 < L.numMembers := by
  intro p hp
  obtain ⟨i, hi, _, hid⟩ := (exists_sharedPiece stores word).1 ⟨p, hp, rfl⟩
  rcases hid with hid | hmem
  · exact hid ▸ hi
  · exact ((L.mem_users hi p.1).1 hmem).1

variable (stores) in
theorem sharedPieces_nodup : ((sharedPieces L stores word).map (·.1)).Nodup := by
  rw [sharedPieces, List.map_flatMap, List.nodup_flatMap]
  have hids : ∀ i m, m ∈ ((if (L.member i).exponentUsers.length < 2 then []
      else groupPieces L stores word i).map (·.1)) →
      m ∈ i :: (L.member i).exponentUsers ∧ ∃ u, u ∈ (L.member i).exponentUsers := by
    intro i m hm
    split_ifs at hm with hlen
    · exact absurd hm List.not_mem_nil
    · rw [groupPieces_map_fst] at hm
      have hpos : 0 < (L.member i).exponentUsers.length := by omega
      exact ⟨hm, List.exists_mem_of_length_pos hpos⟩
  constructor
  · intro i hi
    have hlt := List.mem_range.1 hi
    split_ifs
    · exact List.nodup_nil
    · rw [groupPieces_map_fst]
      refine List.nodup_cons.2 ⟨fun hmem => ?_, L.users_nodup i hlt⟩
      have hexp := ((L.mem_users hlt i).1 hmem).2
      rw [L.exponent_eq_none hlt hmem] at hexp
      exact absurd hexp (by simp)
  · refine List.nodup_range.imp_of_mem fun {i j} hi hj hne => ?_
    have hilt := List.mem_range.1 hi
    have hjlt := List.mem_range.1 hj
    intro m hm hm'
    obtain ⟨hmi, u, hu⟩ := hids i m hm
    obtain ⟨hmj, u', hu'⟩ := hids j m hm'
    rcases List.mem_cons.1 hmi with rfl | hmi
    · rcases List.mem_cons.1 hmj with rfl | hmj
      · exact hne rfl
      · have hexp := ((L.mem_users hjlt m).1 hmj).2
        rw [L.exponent_eq_none hilt hu] at hexp
        exact absurd hexp (by simp)
    · have hexp := ((L.mem_users hilt m).1 hmi).2
      rcases List.mem_cons.1 hmj with rfl | hmj
      · rw [L.exponent_eq_none hjlt hu'] at hexp
        exact absurd hexp (by simp)
      · rw [((L.mem_users hjlt m).1 hmj).2] at hexp
        exact hne (Option.some.inj hexp).symm

end Pieces

section Visit

variable (fp) (stmt : BitStructStore L)

def WritesBit (i : ℕ) : Prop :=
  ∃ p ∈ bitStructPieces L fp stmt.stores, L.HasBit p.1 i

def SharesBit (word : BitVec L.N) (i : ℕ) : Prop :=
  ∃ p ∈ sharedPieces L stmt.stores word, L.HasBit p.1 i

def storeAllComponents (flags : StoreFlags L.N) : Bool :=
  flags.quantOptAtomicDemotion && decide (stmt.stores.length = numNonExponentChildren L)

def hasSharedExponent : Bool :=
  stmt.stores.any fun s => L.ownsSharedExponent s.1

theorem visitBitStructStore_spec (flags : StoreFlags L.N) (word : BitVec L.N) :
    ∃ result, visitBitStructStore L fp stmt flags word = some result ∧ ∀ i < L.N,
      (WritesBit fp stmt i → result.getLsbD i =
        (bitStructVal L (bitStructPieces L fp stmt.stores)).getLsbD i) ∧
      (¬WritesBit fp stmt i → (storeAllComponents stmt flags && !hasSharedExponent stmt) = false →
        (hasSharedExponent stmt = true → SharesBit stmt word i → result.getLsbD i =
          (bitStructVal L (sharedPieces L stmt.stores word)).getLsbD i) ∧
        ((hasSharedExponent stmt = true → ¬SharesBit stmt word i) →
          result.getLsbD i = word.getLsbD i)) := by
  have hmember : ∀ s ∈ stmt.stores, s.1 < L.numMembers := fun s hs => (stmt.isMember s hs).1
  obtain ⟨isAtomic, hatomic⟩ :
    ∃ isAtomic, (flags.isAtomic && !storeAllComponents stmt flags) = isAtomic := ⟨_, rfl⟩
  -- the word after the store of the groups
  obtain ⟨shared, hshared, hsharedBits⟩ : ∃ shared,
      (if hasSharedExponent stmt then
        storeQuantFloatsWithSharedExponents L stmt.stores isAtomic flags word
      else some word) = some shared ∧ ∀ i < L.N,
        (hasSharedExponent stmt = true → SharesBit stmt word i → shared.getLsbD i =
          (bitStructVal L (sharedPieces L stmt.stores word)).getLsbD i) ∧
        ((hasSharedExponent stmt = true → ¬SharesBit stmt word i) →
          shared.getLsbD i = word.getLsbD i) := by
    rcases hasSharedExponent stmt with _ | _
    · exact ⟨word, rfl, fun i _ => ⟨fun h => absurd h Bool.false_ne_true, fun _ => rfl⟩⟩
    · obtain ⟨mask, hmask, hbits⟩ := storeMasked_pieces (sharedPieces_lt word)
        (sharedPieces_nodup stmt.stores word) isAtomic flags.quantOptAtomicDemotion
        flags.failedShared word
      refine ⟨_, ?_, fun i hi => ⟨fun _ => (hbits i hi).1, fun h => (hbits i hi).2 (h rfl)⟩⟩
      rw [storeQuantFloatsWithSharedExponents, hmask]
      rfl
  obtain ⟨mask, hmask, hbits⟩ := storeMasked_pieces (bitStructPieces_lt fp hmember)
    (bitStructPieces_nodup stmt) isAtomic flags.quantOptAtomicDemotion flags.failed shared
  have hvisit : visitBitStructStore L fp stmt flags word =
      if storeAllComponents stmt flags && !hasSharedExponent stmt then
        some (bitStructVal L (bitStructPieces L fp stmt.stores))
      else some (storeMasked L isAtomic flags.quantOptAtomicDemotion flags.failed shared mask
        (bitStructVal L (bitStructPieces L fp stmt.stores))) := by
    have hstart := congrArg (fun x : Option (BitVec L.N) => x.bind fun word =>
      if storeAllComponents stmt flags && !hasSharedExponent stmt then
        some (bitStructVal L (bitStructPieces L fp stmt.stores))
      else (storeMask L (bitStructPieces L fp stmt.stores)).bind fun mask =>
        some (storeMasked L isAtomic flags.quantOptAtomicDemotion flags.failed word mask
          (bitStructVal L (bitStructPieces L fp stmt.stores)))) hshared
    rw [← hatomic] at hstart ⊢
    refine hstart.trans ?_
    rw [Option.bind_some, hmask, Option.bind_some]
  rw [hvisit]
  rcases hfull : storeAllComponents stmt flags && !hasSharedExponent stmt with _ | _
  · refine ⟨_, rfl, fun i hi => ⟨(hbits i hi).1, fun hout _ => ?_⟩⟩
    rw [(hbits i hi).2 hout]
    exact hsharedBits i hi
  · exact ⟨_, rfl, fun i _ => ⟨fun _ => rfl, fun _ h => absurd h (by decide)⟩⟩

theorem mem_of_storeAllComponents {flags : StoreFlags L.N}
    (h : storeAllComponents stmt flags = true) {m : ℕ} (hm : m < L.numMembers)
    (husers : (L.member m).exponentUsers = []) : m ∈ stmt.stores.map (·.1) := by
  rw [storeAllComponents, Bool.and_eq_true, decide_eq_true_eq] at h
  have hsubset : stmt.stores.map (·.1) ⊆
      (List.range L.numMembers).filter fun i => (L.member i).exponentUsers.isEmpty := by
    intro i hi
    obtain ⟨s, hs, rfl⟩ := List.mem_map.1 hi
    obtain ⟨hlt, hempty⟩ := stmt.isMember s hs
    exact List.mem_filter.2 ⟨List.mem_range.2 hlt, List.isEmpty_iff.2 hempty⟩
  have hperm := (List.subperm_of_subset stmt.nodup hsubset).perm_of_length_le (by
    rw [List.length_map, h.2]
    exact Nat.le_refl _)
  refine hperm.mem_iff.2 (List.mem_filter.2 ⟨List.mem_range.2 hm, ?_⟩)
  rw [husers]
  rfl

end Visit

theorem getLsbD_toBits (ch : ℕ) (val : BitVec 64) (k : ℕ) :
    (quantIntOrQuantFixedToBits L fp ch val).getLsbD k =
      (decide (k < L.N) && (decide (k < (L.member ch).numBits) &&
        (decide (k < (L.member ch).qit.computeBits) &&
          (if (L.member ch).kind = .quantFixed then fp.toQuantFixed ch val
            else val).getLsbD k))) := by
  rw [show (L.member ch).numBits = (L.member ch).qit.numBits from rfl, quantIntOrQuantFixedToBits]
  obtain ⟨x, hx⟩ : ∃ x, (if (L.member ch).kind = .quantFixed then fp.toQuantFixed ch val else val) =
    x := ⟨_, rfl⟩
  simp only [hx]
  rw [BitVec.getLsbD_setWidth]
  congr 1
  split_ifs with hlt
  · rw [BitVec.getLsbD_and, BitVec.getLsbD_setWidth, BitVec.getLsbD_ofNat, Nat.one_shiftLeft,
      Nat.testBit_two_pow_sub_one]
    rcases hk : decide (k < (L.member ch).qit.computeBits) with _ | _
    · simp
    · rw [Bool.true_and, Bool.true_and, Bool.and_comm]
  · rw [BitVec.getLsbD_setWidth]
    rcases Nat.lt_or_ge k (L.member ch).qit.computeBits with hk | hk
    · rw [decide_eq_true hk, decide_eq_true (Nat.lt_of_lt_of_le hk (Nat.not_lt.1 hlt)),
        Bool.true_and, Bool.true_and]
    · rw [decide_eq_false (Nat.not_lt.2 hk), Bool.false_and, Bool.and_false]

theorem getLsbD_digits {u : ℕ} (hu : u < L.numMembers) (hkind : (L.member u).kind = .quantFloat)
    (exponentBits : ℕ) (f32 : BitVec 32) {k : ℕ} (hk : (L.member u).numBits ≤ k) :
    (f32ToQuantFloat (L.member u) exponentBits f32).2.getLsbD k = false := by
  have hle := L.digits_le u hu hkind
  have hbits := L.one_le_numBits u hu
  have hwidth : (L.member u).digitBits ≤ (L.member u).numBits := Nat.sub_le _ _
  have hmask : (1#32 <<< (L.member u).digitBits - 1#32).getLsbD k = false := by
    rw [getLsbD_lowMask (by omega), decide_eq_false (by omega)]
  have hlow : ∀ x : BitVec 32,
      (x &&& (1#32 <<< (L.member u).digitBits - 1#32)).getLsbD k = false := by
    intro x
    rw [BitVec.getLsbD_and, hmask, Bool.and_false]
  have hsign : ∀ x : BitVec 32, (L.member u).qit.isSigned = true →
      ((x &&& 0x80000000#32) >>> (31 - (L.member u).digitBits)).getLsbD k = false := by
    intro x hsigned
    have hone : (L.member u).digitBits + 1 = (L.member u).numBits := by
      rw [Member.digitBits, hsigned]
      exact Nat.sub_add_cancel hbits
    have hhigh : 32 ≤ 31 - (L.member u).digitBits + k := by omega
    rw [BitVec.getLsbD_ushiftRight, BitVec.getLsbD_of_ge _ _ hhigh]
  simp only [f32ToQuantFloat]
  split_ifs with hround hexp hsigned hexp hsigned
  · rw [BitVec.getLsbD_or, hlow, hsign _ hsigned, Bool.or_self]
  · exact hlow _
  · exact BitVec.getLsbD_zero
  · rw [BitVec.getLsbD_or, hlow, hsign _ hsigned, Bool.or_self]
  · exact hlow _
  · exact BitVec.getLsbD_zero

theorem readAs_eq_iff {bits : ℕ} (isSigned : Bool) (computeBits : ℕ) (x y : BitVec bits) :
    readAs isSigned computeBits x = readAs isSigned computeBits y ↔
      ∀ k < bits, k < computeBits → x.getLsbD k = y.getLsbD k := by
  have hbit : ∀ z : BitVec bits, ∀ k < bits, k < computeBits →
      (readAs isSigned computeBits z).getLsbD k = z.getLsbD k := by
    intro z k hk hcompute
    rcases isSigned with _ | _
    · change (BitVec.ofInt computeBits (z.toNat : ℤ)).getLsbD k = _
      rw [BitVec.ofInt_natCast, BitVec.getLsbD_ofNat, decide_eq_true hcompute]
      rfl
    · change (z.signExtend computeBits).getLsbD k = _
      rw [BitVec.getLsbD_signExtend, decide_eq_true hcompute, Bool.true_and, if_pos hk]
  constructor
  · intro h k hk hcompute
    rw [← hbit x k hk hcompute, h, hbit y k hk hcompute]
  · intro h
    rcases Nat.le_total computeBits bits with hle | hle
    · apply BitVec.eq_of_getLsbD_eq
      intro k hk
      rw [hbit x k (Nat.lt_of_lt_of_le hk hle) hk, hbit y k (Nat.lt_of_lt_of_le hk hle) hk,
        h k (Nat.lt_of_lt_of_le hk hle) hk]
    · have heq : x = y := by
        apply BitVec.eq_of_getLsbD_eq
        intro k hk
        exact h k hk (Nat.lt_of_lt_of_le hk hle)
      rw [heq]

section Apart

variable (fp) (stmt : BitStructStore L)

structure StoresApart (word : BitVec L.N) : Prop where
  completes : ∀ flags, (visitBitStructStore L fp stmt flags word).isSome
  -- members that are not stored and not in the group of a stored one
  frame : ∀ flags result, visitBitStructStore L fp stmt flags word = some result →
    ∀ m < L.numMembers, (L.member m).exponentUsers = [] → m ∉ stmt.stores.map (·.1) →
    (∀ s ∈ stmt.stores, L.ownsSharedExponent s.1 = true →
      (L.member m).exponent ≠ (L.member s.1).exponent) →
    decode L fp result m = decode L fp word m
  -- the value modulo the power of two of the field
  readBack : ∀ flags result, visitBitStructStore L fp stmt flags word = some result →
    ∀ s ∈ stmt.stores, (L.member s.1).kind = .quantInt →
    extractMember L result s.1 (L.member s.1).qit.computeBits =
      readAs (L.member s.1).qit.isSigned (L.member s.1).qit.computeBits
        ((s.2.setWidth (L.member s.1).qit.computeBits).setWidth (L.member s.1).numBits)
  samePath : ∀ flags flags' result result',
    visitBitStructStore L fp stmt flags word = some result →
    visitBitStructStore L fp stmt flags' word = some result' →
    ∀ m < L.numMembers, (L.member m).exponentUsers = [] →
    decode L fp result m = decode L fp result' m

/-- Bit `i` gets a bit of the exponent of a stored float that does not fit its field. -/
def SpillsTo (i : ℕ) : Prop :=
  ∃ s ∈ stmt.stores, L.ownsSharedExponent s.1 = false ∧ ∃ e, (L.member s.1).exponent = some e ∧
    (L.member e).bitOffset + (L.member e).numBits ≤ i ∧
    (f32ToQuantFloat (L.member s.1) (L.member e).numBits (s.2.setWidth 32)).1.getLsbD
      (i - (L.member e).bitOffset) = true

def SpillsHarmlessly : Prop :=
  ∀ s ∈ stmt.stores, (L.member s.1).kind = .quantInt →
    ∀ k < (L.member s.1).numBits, k < (L.member s.1).qit.computeBits →
    SpillsTo stmt ((L.member s.1).bitOffset + k) → s.2.getLsbD k = true

/-- When one group of a shared exponent is stored, so is every other. -/
def StoresAllGroups : Prop :=
  hasSharedExponent stmt = true → ∀ e < L.numMembers, 2 ≤ (L.member e).exponentUsers.length →
    ∃ s ∈ stmt.stores, (L.member s.1).exponent = some e

variable {flags : StoreFlags L.N} {i m : ℕ} {result word : BitVec L.N}

theorem writesBit_iff (hm : m < L.numMembers) (hi : L.HasBit m i) :
    WritesBit fp stmt i ↔ ∃ s ∈ stmt.stores, L.ownsSharedExponent s.1 = false ∧
      ((L.member s.1).exponent = some m ∨ s.1 = m) := by
  have hmember : ∀ s ∈ stmt.stores, s.1 < L.numMembers := fun s hs => (stmt.isMember s hs).1
  rw [← exists_bitStructPiece fp hmember]
  constructor
  · rintro ⟨p, hp, hhas⟩
    exact ⟨p, hp, hhas.unique (bitStructPieces_lt fp hmember p hp) hm hi⟩
  · rintro ⟨p, hp, rfl⟩
    exact ⟨p, hp, hi⟩

theorem sharesBit_iff (word : BitVec L.N) (hm : m < L.numMembers) (hi : L.HasBit m i) :
    SharesBit stmt word i ↔ ∃ e < L.numMembers, 2 ≤ (L.member e).exponentUsers.length ∧
      (m = e ∨ m ∈ (L.member e).exponentUsers) := by
  rw [← exists_sharedPiece stmt.stores word]
  constructor
  · rintro ⟨p, hp, hhas⟩
    exact ⟨p, hp, hhas.unique (sharedPieces_lt word p hp) hm hi⟩
  · rintro ⟨p, hp, rfl⟩
    exact ⟨p, hp, hi⟩

variable {fp stmt}

theorem memberPieces_of_exponent (s : ℕ × BitVec 64) (hs : s.1 < L.numMembers) {e : ℕ}
    (he : (L.member s.1).exponent = some e) : memberPieces L fp s =
      [(e, (f32ToQuantFloat (L.member s.1) (L.member e).numBits (s.2.setWidth 32)).1.setWidth L.N),
        (s.1, (f32ToQuantFloat (L.member s.1) (L.member e).numBits
          (s.2.setWidth 32)).2.setWidth L.N)] := by
  have hkind := (L.exponent_iff s.1 hs).2 (he ▸ rfl)
  rw [memberPieces, hkind, he]

theorem memberPieces_of_none (s : ℕ × BitVec 64) (he : (L.member s.1).exponent = none) :
    memberPieces L fp s = [(s.1, quantIntOrQuantFixedToBits L fp s.1 s.2)] := by
  rw [memberPieces, he]
  rcases (L.member s.1).kind with _ | _ | _ <;> rfl

theorem getLsbD_ownField (hm : m < L.numMembers) (hi : L.HasBit m i)
    (husers : (L.member m).exponentUsers = []) :
    (bitStructVal L (bitStructPieces L fp stmt.stores)).getLsbD i = true ↔
      (∃ p ∈ bitStructPieces L fp stmt.stores, p.1 = m ∧
        p.2.getLsbD (i - (L.member m).bitOffset) = true) ∨ SpillsTo stmt i := by
  have hlt : i < L.N := hi.lt hm
  rw [getLsbD_bitStructVal _ hlt]
  constructor
  · rintro ⟨p, hp, hle, hbit⟩
    obtain ⟨s, hs, hprivate, hps⟩ := mem_bitStructPieces.1 hp
    have hsm := (stmt.isMember s hs).1
    -- the piece of a field that does not go beyond it
    have hinside : p.1 < L.numMembers →
        i < (L.member p.1).bitOffset + (L.member p.1).numBits →
        ∃ p ∈ bitStructPieces L fp stmt.stores, p.1 = m ∧
          p.2.getLsbD (i - (L.member m).bitOffset) = true := by
      intro hpm hend
      have heq : p.1 = m := BitStruct.HasBit.unique hpm hm ⟨hle, hend⟩ hi
      exact ⟨p, hp, heq, heq ▸ hbit⟩
    rcases hexp : (L.member s.1).exponent with _ | e
    · rw [memberPieces_of_none s hexp, List.mem_singleton] at hps
      subst hps
      refine Or.inl (hinside hsm ?_)
      rw [getLsbD_toBits, Bool.and_eq_true, Bool.and_eq_true, decide_eq_true_eq,
        decide_eq_true_eq] at hbit
      have hk := hbit.2.1
      dsimp only at hle hk ⊢
      omega
    · rw [memberPieces_of_exponent s hsm hexp, List.mem_cons, List.mem_singleton] at hps
      have he := (L.exponent_type s.1 hsm e hexp).1
      rcases hps with rfl | rfl
      · rw [BitVec.getLsbD_setWidth, Bool.and_eq_true] at hbit
        rcases Nat.lt_or_ge i ((L.member e).bitOffset + (L.member e).numBits) with hend | hend
        · exact Or.inl (hinside he hend)
        · exact Or.inr ⟨s, hs, hprivate, e, hexp, hend, hbit.2⟩
      · refine Or.inl (hinside hsm ?_)
        rw [BitVec.getLsbD_setWidth, Bool.and_eq_true] at hbit
        have hkind := (L.exponent_iff s.1 hsm).2 (hexp ▸ rfl)
        rcases Nat.lt_or_ge (i - (L.member s.1).bitOffset) (L.member s.1).numBits with hk | hk
        · dsimp only at hle ⊢
          omega
        · rw [getLsbD_digits hsm hkind _ _ hk] at hbit
          exact absurd hbit.2 Bool.false_ne_true
  · rintro (⟨p, hp, rfl, hbit⟩ | ⟨s, hs, hprivate, e, hexp, hend, hbit⟩)
    · exact ⟨p, hp, hi.1, hbit⟩
    · have hsm := (stmt.isMember s hs).1
      refine ⟨(e, (f32ToQuantFloat (L.member s.1) (L.member e).numBits
        (s.2.setWidth 32)).1.setWidth L.N), ?_, Nat.le_trans (Nat.le_add_right _ _) hend, ?_⟩
      · rw [mem_bitStructPieces]
        refine ⟨s, hs, hprivate, ?_⟩
        rw [memberPieces_of_exponent s hsm hexp]
        exact List.mem_cons_self
      · rw [BitVec.getLsbD_setWidth, decide_eq_true (by omega)]
        exact hbit

variable {f : ℕ} {s : ℕ × BitVec 64}

variable (fp) in
theorem getLsbD_storedInt (hs : s ∈ stmt.stores)
    (hkind : (L.member s.1).kind = .quantInt) {k : ℕ} (hk : k < (L.member s.1).numBits)
    (hcompute : k < (L.member s.1).qit.computeBits) :
    (bitStructVal L (bitStructPieces L fp stmt.stores)).getLsbD
        ((L.member s.1).bitOffset + k) = true ↔
      s.2.getLsbD k = true ∨ SpillsTo stmt ((L.member s.1).bitOffset + k) := by
  obtain ⟨hsm, husers⟩ := stmt.isMember s hs
  have hhas : L.HasBit s.1 ((L.member s.1).bitOffset + k) :=
    ⟨Nat.le_add_right _ _, Nat.add_lt_add_left hk _⟩
  have hnone : (L.member s.1).exponent = none := by
    rcases hexp : (L.member s.1).exponent with _ | e
    · rfl
    · have hfloat := (L.exponent_iff s.1 hsm).2 (hexp ▸ rfl)
      rw [hkind] at hfloat
      exact absurd hfloat (by decide)
  have hprivate : L.ownsSharedExponent s.1 = false := by
    rw [BitStruct.ownsSharedExponent, hnone]
  have hpiece : ∀ p, (p ∈ bitStructPieces L fp stmt.stores ∧ p.1 = s.1) ↔
      p = (s.1, quantIntOrQuantFixedToBits L fp s.1 s.2) := by
    intro p
    rw [mem_bitStructPieces]
    constructor
    · rintro ⟨⟨s', hs', _, hps⟩, hid⟩
      rcases hexp : (L.member s'.1).exponent with _ | e
      · rw [memberPieces_of_none s' hexp, List.mem_singleton] at hps
        subst hps
        have heq := List.inj_on_of_nodup_map stmt.nodup hs' hs hid
        rw [heq]
      · rw [memberPieces_of_exponent s' (stmt.isMember s' hs').1 hexp, List.mem_cons,
          List.mem_singleton] at hps
        rcases hps with rfl | rfl
        · have hmem := L.mem_users_of_exponent _ (stmt.isMember s' hs').1 _ hexp
          change e = s.1 at hid
          rw [hid, husers] at hmem
          exact absurd hmem List.not_mem_nil
        · rw [hid, hnone] at hexp
          exact absurd hexp (by simp)
    · rintro rfl
      refine ⟨⟨s, hs, hprivate, ?_⟩, rfl⟩
      rw [memberPieces_of_none s hnone]
      exact List.mem_singleton_self _
  rw [getLsbD_ownField hsm hhas husers]
  simp only [← and_assoc, hpiece, exists_eq_left]
  have hlt : k < L.N := by
    have := hhas.lt hsm
    omega
  rw [Nat.add_sub_cancel_left, getLsbD_toBits, decide_eq_true hlt, decide_eq_true hk,
    decide_eq_true hcompute, if_neg (by rw [hkind]; decide), Bool.true_and, Bool.true_and,
    Bool.true_and]

theorem keeps_bit (h : StoresAllGroups stmt)
    (hvisit : visitBitStructStore L fp stmt flags word = some result)
    (hm : m < L.numMembers) (husers : (L.member m).exponentUsers = [])
    (hunstored : m ∉ stmt.stores.map (·.1))
    (hgroup : ∀ s ∈ stmt.stores, L.ownsSharedExponent s.1 = true →
      (L.member m).exponent ≠ (L.member s.1).exponent)
    (hf : f = m ∨ (L.member m).exponent = some f) (hi : L.HasBit f i) :
    result.getLsbD i = word.getLsbD i := by
  have hflt : f < L.numMembers := by
    rcases hf with rfl | hexp
    · exact hm
    · exact (L.exponent_type m hm f hexp).1
  have hfull : storeAllComponents stmt flags = false := by
    rw [← Bool.not_eq_true]
    intro hall
    exact hunstored (mem_of_storeAllComponents stmt hall hm husers)
  have hwrites : ¬WritesBit fp stmt i := by
    rw [writesBit_iff fp stmt hflt hi]
    rintro ⟨s, hs, hprivate, hid⟩
    obtain ⟨hsm, hsusers⟩ := stmt.isMember s hs
    have hstored : s.1 ≠ m := fun heq => hunstored (heq ▸ List.mem_map_of_mem hs)
    rcases hf with rfl | hexp
    · rcases hid with hsexp | heq
      · have hmem := L.mem_users_of_exponent _ hsm _ hsexp
        rw [husers] at hmem
        exact List.not_mem_nil hmem
      · exact hstored heq
    · rcases hid with hsexp | rfl
      · exact hstored (L.eq_of_private hsm hm hsexp hexp hprivate)
      · have hmem := L.mem_users_of_exponent _ hm _ hexp
        rw [hsusers] at hmem
        exact List.not_mem_nil hmem
  have hshares : hasSharedExponent stmt = true → ¬SharesBit stmt word i := by
    intro hshared
    rw [sharesBit_iff stmt word hflt hi]
    rintro ⟨e, he, hlen, hid⟩
    -- the group would be that of the member
    have hown : m ∈ (L.member e).exponentUsers := by
      rcases hf with rfl | hexp
      · rcases hid with rfl | hmem
        · rw [husers] at hlen
          exact absurd hlen (by decide)
        · exact hmem
      · rcases hid with rfl | hmem
        · exact L.mem_users_of_exponent _ hm _ hexp
        · have hnone := L.exponent_eq_none hflt (L.mem_users_of_exponent _ hm _ hexp)
          rw [((L.mem_users he f).1 hmem).2] at hnone
          exact absurd hnone (by simp)
    obtain ⟨s, hs, hsexp⟩ := h hshared e he hlen
    have hsmem := L.mem_users_of_exponent _ (stmt.isMember s hs).1 _ hsexp
    refine hgroup s hs ?_ (((L.mem_users he m).1 hown).2.trans hsexp.symm)
    rw [L.ownsSharedExponent_of_mem he hsmem]
    exact decide_eq_true hlen
  obtain ⟨result', hvisit', hspec⟩ := visitBitStructStore_spec fp stmt flags word
  obtain rfl := Option.some.inj (hvisit.symm.trans hvisit')
  refine ((hspec i (hi.lt hflt)).2 hwrites ?_).2 hshares
  rw [hfull, Bool.false_and]

theorem readBack_iff
    (hvisit : visitBitStructStore L fp stmt flags word = some result)
    (hs : s ∈ stmt.stores) (hkind : (L.member s.1).kind = .quantInt) :
    extractMember L result s.1 (L.member s.1).qit.computeBits =
        readAs (L.member s.1).qit.isSigned (L.member s.1).qit.computeBits
          ((s.2.setWidth (L.member s.1).qit.computeBits).setWidth (L.member s.1).numBits) ↔
      ∀ k < (L.member s.1).numBits, k < (L.member s.1).qit.computeBits →
        SpillsTo stmt ((L.member s.1).bitOffset + k) → s.2.getLsbD k = true := by
  obtain ⟨hsm, husers⟩ := stmt.isMember s hs
  obtain ⟨result', hvisit', hspec⟩ := visitBitStructStore_spec fp stmt flags word
  obtain rfl := Option.some.inj (hvisit.symm.trans hvisit')
  rw [extractMember_eq hsm, readAs_eq_iff]
  refine forall₂_congr fun k hk => forall_congr' fun hcompute => ?_
  have hhas : L.HasBit s.1 ((L.member s.1).bitOffset + k) :=
    ⟨Nat.le_add_right _ _, Nat.add_lt_add_left hk _⟩
  have hprivate : L.ownsSharedExponent s.1 = false := by
    rcases hexp : (L.member s.1).exponent with _ | e
    · rw [BitStruct.ownsSharedExponent, hexp]
    · have hfloat := (L.exponent_iff s.1 hsm).2 (hexp ▸ rfl)
      rw [hkind] at hfloat
      exact absurd hfloat (by decide)
  have hwrites : WritesBit fp stmt ((L.member s.1).bitOffset + k) :=
    (writesBit_iff fp stmt hsm hhas).2 ⟨s, hs, hprivate, Or.inr rfl⟩
  have hvalue := getLsbD_storedInt fp hs hkind hk hcompute
  rw [getLsbD_field, decide_eq_true hk, Bool.true_and, (hspec _ (hhas.lt hsm)).1 hwrites,
    BitVec.getLsbD_setWidth, decide_eq_true hk, Bool.true_and, BitVec.getLsbD_setWidth,
    decide_eq_true hcompute, Bool.eq_iff_iff, hvalue]
  exact or_iff_left_iff_imp

theorem samePath_bit {flags' : StoreFlags L.N} {result' : BitVec L.N}
    (hvisit : visitBitStructStore L fp stmt flags word = some result)
    (hvisit' : visitBitStructStore L fp stmt flags' word = some result')
    (hm : m < L.numMembers) (husers : (L.member m).exponentUsers = [])
    (hf : f = m ∨ (L.member m).exponent = some f) (hi : L.HasBit f i) :
    result.getLsbD i = result'.getLsbD i := by
  have hflt : f < L.numMembers := by
    rcases hf with rfl | hexp
    · exact hm
    · exact (L.exponent_type m hm f hexp).1
  obtain ⟨r, hr, hspec⟩ := visitBitStructStore_spec fp stmt flags word
  obtain rfl := Option.some.inj (hvisit.symm.trans hr)
  obtain ⟨r', hr', hspec'⟩ := visitBitStructStore_spec fp stmt flags' word
  obtain rfl := Option.some.inj (hvisit'.symm.trans hr')
  by_cases hwrites : WritesBit fp stmt i
  · rw [(hspec i (hi.lt hflt)).1 hwrites, (hspec' i (hi.lt hflt)).1 hwrites]
  · -- a store of everything would write the field
    have hpart : ∀ flags : StoreFlags L.N,
        (storeAllComponents stmt flags && !hasSharedExponent stmt) = false := by
      intro flags
      rw [← Bool.not_eq_true, Bool.and_eq_true, Bool.not_eq_true', not_and, Bool.not_eq_false]
      intro hall
      obtain ⟨s, hs, rfl⟩ := List.mem_map.1 (mem_of_storeAllComponents stmt hall hm husers)
      rw [writesBit_iff fp stmt hflt hi] at hwrites
      rw [hasSharedExponent, List.any_eq_true]
      refine ⟨s, hs, ?_⟩
      rw [← Bool.not_eq_false]
      intro hprivate
      exact hwrites ⟨s, hs, hprivate, hf.symm.imp id Eq.symm⟩
    obtain ⟨hshared, hkept⟩ := (hspec i (hi.lt hflt)).2 hwrites (hpart flags)
    obtain ⟨hshared', hkept'⟩ := (hspec' i (hi.lt hflt)).2 hwrites (hpart flags')
    by_cases hgroup : hasSharedExponent stmt = true ∧ SharesBit stmt word i
    · rw [hshared hgroup.1 hgroup.2, hshared' hgroup.1 hgroup.2]
    · have hnone := not_and.1 hgroup
      rw [hkept hnone, hkept' hnone]

variable (stmt)

end Apart

def smallFloatLayout : BitStruct where
  physicalType := .b32
  numMembers := 3
  member
    | 0 => ⟨.quantInt, ⟨4, false, 32⟩, 0, none, [1]⟩
    | 1 => ⟨.quantFloat, ⟨3, false, 32⟩, 4, some 0, []⟩
    | _ => ⟨.quantInt, ⟨8, true, 32⟩, 7, none, []⟩
  one_le_numBits := by decide
  inOrder := by decide
  fits := by decide
  mem_users_of_exponent := by decide
  exponent_of_mem := by decide
  users_nodup := by decide
  exponent_iff := by decide
  exponent_type := by decide
  digits_le := by decide

def smallFloatStore : BitStructStore smallFloatLayout where
  stores := [(1, 0x7F000000), (2, 0)]
  nonempty := by decide
  nodup := by decide
  isMember := by decide

def noFixedPoint : FixedPoint where
  toQuantFixed _ _ := 0
  reconstructQuantFixed _ _ := 0

end Quadrants.Quant
