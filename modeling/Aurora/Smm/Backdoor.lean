import Aurora.Lib.Register
import Aurora.Smm.Transmit

/-! The steps by which the firmware looks at the NIC's transmit ring behind the
back of the OS driver, on the whole register file. The controller is the one
QEMU emulates, with nothing being sent or polled meanwhile; with every access it
brings its interrupt state up to date. Saving and restoring CSR5 is not neutral:
its flags are cleared by the ones that are written back. -/
namespace Aurora.Smm.Backdoor
open Lib

/-- The control and status registers. -/
abbrev Csr := Nat → BitVec 16

/-- The registers that are more than a value: writes to CSR0 and CSR58 act on the
controller, and CSR58 reads as a bus register. -/
structure Device where
  write : Csr → Nat → BitVec 16 → Csr
  sws : BitVec 16

def store (csr : Csr) (rap : Nat) (val : BitVec 16) : Csr := fun r => if r = rap then val else csr r

/-- The registers that take any value as it comes. -/
def stored (rap : Nat) : Bool :=
  rap == 1 || rap == 2 || rap == 3 || (8 ≤ rap && rap ≤ 15) || (18 ≤ rap && rap ≤ 47) ||
    rap == 72 || rap == 74

/-- `pcnet_csr_writew` -/
def csrWritew (device : Device) (csr : Csr) (rap : Nat) (val : BitVec 16) : Csr :=
  if rap = 0 ∨ rap = 58 then device.write csr rap val
  else if rap = 4 then store csr 4 (writeOneToClear 0x026a (csr 4) val)
  else if rap = 5 then store csr 5 (writeOneToClear 0x0a90 (csr 5) val)
  else if rap = 16 ∨ rap = 17 then store csr (rap - 15) val
  else if rap = 76 ∨ rap = 78 then store csr rap (if 0 < val then val else 512)
  else if rap = 112 then
    -- The missed frame count, while the controller is stopped or suspended.
    if csr 0 &&& 0x0004 ≠ 0 ∨ csr 5 &&& 0x0001 ≠ 0 then store csr 112 val else csr
  else if stored rap then store csr rap val
  else csr

/-! `pcnet_update_irq`, without the interrupt line. -/

/-- The sources that set INTR, each with a mask of its own. -/
def sources (csr : Csr) : Bool :=
  csr 0 &&& ~~~csr 3 &&& 0x5f00 != 0 || csr 4 >>> 1 &&& ~~~csr 4 &&& 0x0115 != 0 ||
    csr 5 >>> 1 &&& csr 5 &&& 0x0048 != 0

/-- The user interrupt, while interrupts are enabled. -/
def userInt (csr : Csr) : Bool := csr 4 &&& 0x0080 != 0 && csr 0 &&& 0x0040 != 0

def sleepInt (csr : Csr) : Bool := csr 5 >>> 1 &&& csr 5 &&& 0x0500 != 0

/-- Both statements on CSR4 at once. -/
def acknowledge (csr : Csr) : Csr :=
  if userInt csr then store csr 4 (csr 4 &&& ~~~0x0080 ||| 0x0040) else csr

def setIntr (on : Bool) (csr : Csr) : Csr := if on then store csr 0 (csr 0 ||| 0x0080) else csr

def updateIrq (csr : Csr) : Csr :=
  let csr := store csr 0 (csr 0 &&& ~~~0x0080)
  let csr := setIntr (sources csr) csr
  let csr := setIntr (userInt csr) (acknowledge csr)
  setIntr (sleepInt csr) csr

/-- `pcnet_csr_readw`, 16 bits of it; CSR0 is brought up to date, and shows the sum
of its error flags. -/
def csrReadw (device : Device) (csr : Csr) (rap : Nat) : BitVec 16 × Csr :=
  if rap = 0 then
    let csr := updateIrq csr
    (csr 0 ||| (if csr 0 &&& 0x7800 = 0 then 0 else 0x8000), csr)
  else if rap = 16 ∨ rap = 17 then (csr (rap - 15), csr)
  else if rap = 58 then (device.sws, csr)
  else (csr rap, csr)

/-! `pcnet_ioport_readw` and `pcnet_ioport_writew`, in word mode. Of `pcnet_poll_timer`,
which comes first, nothing is left but the update. -/

/-- A write to the address port. -/
def ioportRap (csr : Csr) : Csr := updateIrq (updateIrq csr)

def ioportReadw (device : Device) (csr : Csr) (rap : Nat) : BitVec 16 × Csr :=
  let result := csrReadw device (updateIrq csr) rap
  (result.1, updateIrq result.2)

def ioportWritew (device : Device) (csr : Csr) (rap : Nat) (val : BitVec 16) : Csr :=
  updateIrq (csrWritew device (updateIrq csr) rap val)

/-- `pcnet32_wio_read_csr` -/
def readCsr (device : Device) (csr : Csr) (index : Nat) : BitVec 16 × Csr :=
  ioportReadw device (ioportRap csr) index

/-- `pcnet32_wio_write_csr` -/
def writeCsr (device : Device) (csr : Csr) (index : Nat) (val : BitVec 16) : Csr :=
  ioportWritew device (ioportRap csr) index val

/-- `static int __CSR5` and `static short __XMTRC`. -/
structure Shadow where
  csr5 : BitVec 32
  xmtrc : BitVec 16

section Steps
variable (device : Device)

/-- `pcnet32_backdoor_step1` -/
def backdoorStep1 (csr : Csr) : Csr × Shadow :=
  let csr5 := readCsr device csr 5
  let csr := writeCsr device csr5.2 5 0x0001
  let xmtrc := readCsr device csr 74
  let shadow : Shadow := ⟨csr5.1.setWidth 32, xmtrc.1⟩
  (writeCsr device xmtrc.2 5 (shadow.csr5.setWidth 16), shadow)

/-- `pcnet32_backdoor_step2` -/
def backdoorStep2 (csr : Csr) (shadow : Shadow) : Csr × Shadow :=
  let csr5 := readCsr device csr 5
  let shadow : Shadow := { shadow with csr5 := csr5.1.setWidth 32 }
  let csr := writeCsr device csr5.2 74 shadow.xmtrc
  (writeCsr device csr 5 (shadow.csr5.setWidth 16), shadow)

def backdoor (csr : Csr) : Csr × Shadow :=
  let opened := backdoorStep1 device csr
  backdoorStep2 device opened.1 opened.2

/-- What `pcnet32_handler` of the network firmware does to the registers. The
receive path works on descriptors in memory, and between the two steps at the end
the call that sends the enclave's messages is commented out there. -/
def pcnet32Handler (csr : Csr) (shadow : Shadow) : Csr × Shadow :=
  let int := readCsr device csr 0
  let served := if int.1 &&& 0x0200 ≠ 0 then backdoor device int.2 else (int.2, shadow)
  if int.1 &&& 0x0200 = 0 ∧ int.1 &&& 0x0400 = 0 then backdoor device served.1 else served

end Steps

@[simp] theorem store_same (csr : Csr) (rap : Nat) (val : BitVec 16) : store csr rap val rap = val :=
  if_pos rfl

@[simp] theorem store_other (csr : Csr) {rap r : Nat} (val : BitVec 16) (other : r ≠ rap) :
    store csr rap val r = csr r := if_neg other

@[simp] theorem store_store (csr : Csr) (rap : Nat) (first second : BitVec 16) :
    store (store csr rap first) rap second = store csr rap second := by
  funext r
  simp only [store]
  split <;> rfl

@[simp] theorem store_self (csr : Csr) (rap : Nat) : store csr rap (csr rap) = csr := by
  funext r
  simp only [store]
  split
  · rw [‹r = rap›]
  · rfl

theorem store_comm (csr : Csr) {rap r : Nat} (val other : BitVec 16) (different : rap ≠ r) :
    store (store csr rap val) r other = store (store csr r other) rap val := by
  funext k
  simp only [store]
  split_ifs with here there
  · exact absurd (there.symm.trans here) different
  all_goals rfl

/-- A register kept in a wider variable comes back as it was. -/
@[simp] theorem shadow_width (val : BitVec 16) : (val.setWidth 32).setWidth 16 = val := by
  simp

/-! What the updates come to. -/
section Update
variable {csr other : Csr}

theorem sources_congr (flags : other 0 &&& 0x5f00 = csr 0 &&& 0x5f00) (masks : other 3 = csr 3)
    (four : other 4 = csr 4) (five : other 5 = csr 5) : sources other = sources csr := by
  have shown (c : Csr) : c 0 &&& ~~~c 3 &&& 0x5f00 = c 0 &&& 0x5f00 &&& ~~~c 3 := by
    rw [BitVec.and_assoc, BitVec.and_comm (~~~c 3), BitVec.and_assoc]
  rw [sources, sources, shown, shown, flags, masks, four, five]

theorem userInt_congr (enabled : other 0 &&& 0x0040 = csr 0 &&& 0x0040) (four : other 4 = csr 4) :
    userInt other = userInt csr := by
  rw [userInt, userInt, enabled, four]

theorem sleepInt_congr (five : other 5 = csr 5) : sleepInt other = sleepInt csr := by
  rw [sleepInt, sleepInt, five]

/-- INTR shows in none of the conditions. -/
theorem sources_intr (csr : Csr) (on : Bool) : sources (store csr 0 (setFlag 0x0080 on (csr 0))) = sources csr :=
  sources_congr ((congrArg (· &&& _) (store_same csr 0 _)).trans (setFlag_and (by decide) _ _)) rfl rfl rfl

theorem userInt_intr (csr : Csr) (on : Bool) : userInt (store csr 0 (setFlag 0x0080 on (csr 0))) = userInt csr :=
  userInt_congr ((congrArg (· &&& _) (store_same csr 0 _)).trans (setFlag_and (by decide) _ _)) rfl

theorem setIntr_store (csr : Csr) (on before : Bool) (val : BitVec 16) :
    setIntr on (store csr 0 (setFlag 0x0080 before val)) = store csr 0 (setFlag 0x0080 (before || on) val) := by
  cases on with
  | false => rw [setIntr, if_neg (by decide), Bool.or_false]
  | true =>
    have set : setFlag 0x0080 before val ||| 0x0080 = setFlag 0x0080 true (setFlag 0x0080 before val) := rfl
    rw [setIntr, if_pos rfl, store_store, store_same, set, setFlag_setFlag, Bool.or_true]

theorem acknowledge_intr (csr : Csr) (on : Bool) :
    acknowledge (store csr 0 (setFlag 0x0080 on (csr 0))) =
      store (acknowledge csr) 0 (setFlag 0x0080 on (csr 0)) := by
  rw [acknowledge, userInt_intr, acknowledge]
  cases userInt csr with
  | false => rfl
  | true => exact store_comm _ _ _ (by decide)

theorem updateIrq_eq (csr : Csr) : updateIrq csr = store (acknowledge csr) 0
    (setFlag 0x0080 (sources csr || userInt csr || sleepInt csr) (csr 0)) := by
  have cleared : csr 0 &&& ~~~0x0080 = setFlag 0x0080 false (csr 0) := rfl
  have five : sleepInt (store (acknowledge csr) 0 (setFlag 0x0080 (sources csr || userInt csr) (csr 0))) =
      sleepInt csr := by
    refine sleepInt_congr ?_
    rw [store_other _ _ (by decide), acknowledge]
    split <;> rfl
  simp only [updateIrq, cleared, sources_intr, setIntr_store, Bool.false_or, userInt_intr, acknowledge_intr, five]

/-- Once it is acknowledged the user interrupt is not seen again. -/
theorem userInt_acknowledge (csr : Csr) : userInt (acknowledge csr) = false := by
  cases user : userInt csr with
  | false => rw [acknowledge, user, if_neg (by decide), user]
  | true =>
    have gone : (csr 4 &&& ~~~0x0080 ||| 0x0040) &&& 0x0080 = 0#16 := by
      have bits : csr 4 &&& ~~~0x0080 ||| 0x0040 = setFlag 0x0040 true (setFlag 0x0080 false (csr 4)) := rfl
      rw [bits, setFlag_and (by decide), setFlag_and_self]
    rw [acknowledge, user, if_pos rfl, userInt, store_same, gone]
    rfl

theorem acknowledge_quiet (quiet : userInt csr = false) : acknowledge csr = csr := by
  rw [acknowledge, quiet, if_neg (by decide)]

theorem acknowledge_other {r : Nat} (different : r ≠ 4) : acknowledge csr r = csr r := by
  rw [acknowledge]
  split
  · exact store_other _ _ different
  · rfl

/-- Without a user interrupt, whatever INTR was, it is the sum of the sources. -/
theorem updateIrq_intr (quiet : userInt csr = false) (on : Bool) :
    updateIrq (store csr 0 (setFlag 0x0080 on (csr 0))) =
      store csr 0 (setFlag 0x0080 (sources csr || sleepInt csr) (csr 0)) := by
  rw [updateIrq_eq, acknowledge_intr, acknowledge_quiet quiet, sources_intr, userInt_intr, quiet, Bool.or_false,
    store_same, store_store, setFlag_setFlag]
  rfl

/-- The registers after updates, with this value in CSR5. -/
def settle (csr : Csr) (five : BitVec 16) : Csr :=
  let csr := store (acknowledge csr) 5 five
  store csr 0 (setFlag 0x0080 (sources csr || sleepInt csr) (csr 0))

theorem settle_five (csr : Csr) (five : BitVec 16) : settle csr five 5 = five := rfl

theorem settle_zero (csr : Csr) (five : BitVec 16) :
    ∃ on, settle csr five 0 = setFlag 0x0080 on (csr 0) := by
  refine ⟨sources (store (acknowledge csr) 5 five) || sleepInt (store (acknowledge csr) 5 five), ?_⟩
  simp only [settle, store_same]
  rw [store_other _ _ (by decide), acknowledge_other (by decide)]

theorem settle_other (csr : Csr) (five : BitVec 16) {r : Nat} (zero : r ≠ 0) (four : r ≠ 4) (other : r ≠ 5) :
    settle csr five r = csr r := by
  rw [settle, store_other _ _ zero, store_other _ _ other, acknowledge_other four]

theorem settle_xmtrc (csr : Csr) (five : BitVec 16) : settle csr five 74 = csr 74 :=
  settle_other csr five (by decide) (by decide) (by decide)

theorem updateIrq_updateIrq (csr : Csr) : updateIrq (updateIrq csr) = settle csr (csr 5) := by
  have zero : csr 0 = acknowledge csr 0 := (acknowledge_other (by decide)).symm
  have five : csr 5 = acknowledge csr 5 := (acknowledge_other (by decide)).symm
  rw [updateIrq_eq csr, zero, updateIrq_intr (userInt_acknowledge csr), settle, five, store_self]

/-- A write to CSR5 settles at once. -/
theorem updateIrq_store_five (csr : Csr) (five val : BitVec 16) :
    updateIrq (store (settle csr five) 5 val) = settle csr val := by
  have quiet : userInt (store (acknowledge csr) 5 val) = false :=
    (userInt_congr rfl rfl).trans (userInt_acknowledge csr)
  rw [settle, store_comm _ _ _ (by decide), store_store]
  exact updateIrq_intr quiet _

@[simp] theorem updateIrq_settle (csr : Csr) (five : BitVec 16) : updateIrq (settle csr five) = settle csr five := by
  have same := updateIrq_store_five csr five five
  rwa [show store (settle csr five) 5 five = settle csr five from store_self (settle csr five) 5] at same

@[simp] theorem settle_settle (csr : Csr) (five val : BitVec 16) : settle (settle csr five) val = settle csr val := by
  rw [← updateIrq_store_five csr five val, ← updateIrq_store_five (settle csr five) five val]
  have same : settle (settle csr five) five = settle csr five := by
    have twice := updateIrq_updateIrq (settle csr five)
    rwa [updateIrq_settle, updateIrq_settle, settle_five, eq_comm] at twice
  rw [same]

theorem settle_store (csr : Csr) (five val : BitVec 16) :
    store (settle csr five) 74 val = settle (store csr 74 val) five := by
  have four : acknowledge (store csr 74 val) = store (acknowledge csr) 74 val := by
    rw [acknowledge, acknowledge, show userInt (store csr 74 val) = userInt csr from rfl]
    cases userInt csr with
    | false => rfl
    | true => exact store_comm _ _ _ (by decide)
  rw [settle, settle, four, store_comm _ _ _ (show 74 ≠ 5 by decide), store_comm _ _ _ (show 0 ≠ 74 by decide)]
  rfl

end Update

/-! Access to the two registers of the steps. -/
section Access
variable (device : Device) (csr : Csr)

/-- The write to the address port has settled the registers before the data moves. -/
theorem ioportRap_eq : ioportRap csr = settle csr (csr 5) := updateIrq_updateIrq csr

theorem readCsr_eq {index : Nat} (zero : index ≠ 0) :
    readCsr device csr index = ((csrReadw device (settle csr (csr 5)) index).1, settle csr (csr 5)) := by
  have pure : (csrReadw device (settle csr (csr 5)) index).2 = settle csr (csr 5) := by
    rw [csrReadw, if_neg zero]
    split
    · rfl
    · split <;> rfl
  rw [readCsr, ioportReadw, ioportRap_eq, updateIrq_settle, pure, updateIrq_settle]

theorem readCsr_five : readCsr device csr 5 = (csr 5, settle csr (csr 5)) := readCsr_eq device csr (by decide)

theorem readCsr_xmtrc : readCsr device csr 74 = (csr 74, settle csr (csr 5)) := by
  rw [readCsr_eq device csr (by decide)]
  exact congrArg (Prod.mk · _) (settle_xmtrc csr (csr 5))

theorem readCsr_zero : readCsr device csr 0 = (settle csr (csr 5) 0 |||
    (if settle csr (csr 5) 0 &&& 0x7800 = 0 then 0 else 0x8000), settle csr (csr 5)) := by
  simp only [readCsr, ioportReadw, ioportRap_eq, updateIrq_settle, csrReadw, if_true]

/-- The update leaves the transmit interrupt alone. -/
theorem readCsr_txInt : (readCsr device csr 0).1 &&& 0x0200 = csr 0 &&& 0x0200 := by
  obtain ⟨on, intr⟩ := settle_zero csr (csr 5)
  have outside (c : Prop) [Decidable c] : (if c then (0 : BitVec 16) else 0x8000) &&& 0x0200 = 0#16 := by
    split <;> decide
  rw [readCsr_zero, BitVec.and_comm, BitVec.and_or_distrib_left, BitVec.and_comm _ (settle _ _ _),
    BitVec.and_comm _ (ite _ _ _), outside, BitVec.or_zero, intr, setFlag_and (by decide)]

theorem writeCsr_five (val : BitVec 16) :
    writeCsr device csr 5 val = settle csr (writeOneToClear 0x0a90 (csr 5) val) := by
  rw [writeCsr, ioportWritew, ioportRap_eq, updateIrq_settle]
  exact updateIrq_store_five csr (csr 5) _

theorem writeCsr_xmtrc (val : BitVec 16) : writeCsr device csr 74 val = settle (store csr 74 val) (csr 5) := by
  rw [writeCsr, ioportWritew, ioportRap_eq, updateIrq_settle]
  exact (congrArg updateIrq (settle_store csr (csr 5) val)).trans (updateIrq_settle _ _)

end Access

section Effect
variable (device : Device) (csr : Csr)

/-- The first step clears the flags of CSR5. -/
theorem backdoorStep1_csr : (backdoorStep1 device csr).1 = settle csr (csr 5 &&& ~~~0x0a90) := by
  have kept : writeOneToClear 0x0a90 (csr 5) 0x0001 &&& 0x0a90 = csr 5 &&& 0x0a90 :=
    writeOneToClear_keep (by decide)
  simp only [backdoorStep1, readCsr_five, writeCsr_five, readCsr_xmtrc, shadow_width, settle_five, settle_settle,
    writeOneToClear_restore kept]

theorem backdoorStep1_xmtrc : (backdoorStep1 device csr).2.xmtrc = csr 74 := by
  simp only [backdoorStep1, readCsr_five, writeCsr_five, readCsr_xmtrc, settle_five, settle_settle]
  exact settle_xmtrc csr _

/-- The second step sets the count, and clears what flags there are. -/
theorem backdoorStep2_csr (shadow : Shadow) :
    (backdoorStep2 device csr shadow).1 = settle (store csr 74 shadow.xmtrc) (csr 5 &&& ~~~0x0a90) := by
  simp only [backdoorStep2, readCsr_five, writeCsr_xmtrc, writeCsr_five, shadow_width, settle_five, settle_store,
    settle_settle, writeOneToClear_restore rfl]

theorem backdoor_csr : (backdoor device csr).1 = settle csr (csr 5 &&& ~~~0x0a90) := by
  have cleared : csr 5 &&& ~~~0x0a90 &&& ~~~0x0a90 = csr 5 &&& ~~~0x0a90 := by
    rw [BitVec.and_assoc, BitVec.and_self]
  have same : (backdoorStep1 device csr).2.xmtrc = (backdoorStep1 device csr).1 74 := by
    rw [backdoorStep1_xmtrc, backdoorStep1_csr, settle_xmtrc]
  rw [backdoor, backdoorStep2_csr, same, store_self, backdoorStep1_csr, settle_five, settle_settle, cleared]

/-- With a transmit interrupt the steps run once, whatever the receive path does. -/
theorem pcnet32Handler_txInt (shadow : Shadow) (txInt : csr 0 &&& 0x0200 ≠ 0) :
    (pcnet32Handler device csr shadow).1 = settle csr (csr 5 &&& ~~~0x0a90) := by
  have shown : (readCsr device csr 0).1 &&& 0x0200 ≠ 0 := readCsr_txInt device csr ▸ txInt
  rw [pcnet32Handler]
  simp only [shown, ne_eq, not_false_eq_true, if_true, false_and, if_false, backdoor_csr]
  simp only [readCsr_zero, settle_five, settle_settle]

end Effect

/-- The interrupt state is up to date: INTR shows whether a source is pending, and no
user interrupt waits to be acknowledged. -/
structure Settled (csr : Csr) : Prop where
  acknowledged : csr 4 &&& 0x0080 = 0 ∨ csr 0 &&& 0x0040 = 0
  intr : csr 0 &&& 0x0080 ≠ 0 ↔ csr 0 &&& ~~~csr 3 &&& 0x5f00 ≠ 0 ∨ csr 4 >>> 1 &&& ~~~csr 4 &&& 0x0115 ≠ 0 ∨
    csr 5 >>> 1 &&& csr 5 &&& 0x0048 ≠ 0 ∨ csr 5 >>> 1 &&& csr 5 &&& 0x0500 ≠ 0

theorem settle_quiet {csr : Csr} (quiet : userInt csr = false) : settle csr (csr 5) =
    store csr 0 (setFlag 0x0080 (sources csr || sleepInt csr) (csr 0)) := by
  simp only [settle, acknowledge_quiet quiet, store_self]

theorem sources_iff (csr : Csr) : (sources csr || sleepInt csr) = true ↔
    csr 0 &&& ~~~csr 3 &&& 0x5f00 ≠ 0 ∨ csr 4 >>> 1 &&& ~~~csr 4 &&& 0x0115 ≠ 0 ∨
      csr 5 >>> 1 &&& csr 5 &&& 0x0048 ≠ 0 ∨ csr 5 >>> 1 &&& csr 5 &&& 0x0500 ≠ 0 := by
  simp only [sources, sleepInt, Bool.or_eq_true, bne_iff_ne, or_assoc]

theorem settle_eq_self_iff (csr : Csr) : settle csr (csr 5) = csr ↔ Settled csr := by
  have shown : csr 0 &&& 0x0080 = if (csr 0).getLsbD 7 then 0x0080 else 0#16 := BitVec.and_twoPow (csr 0) 7
  have set : csr 0 &&& 0x0080 ≠ 0 ↔ (csr 0).getLsbD 7 = true := by
    rw [shown]
    cases (csr 0).getLsbD 7 <;> decide
  constructor
  · intro same
    have four : acknowledge csr = csr := by
      funext r
      by_cases here : r = 4
      · rw [here]
        exact congrFun same 4
      · exact acknowledge_other here
    have quiet : userInt csr = false := four ▸ userInt_acknowledge csr
    have intr := setFlag_eq_self_iff.mp (((store_same csr 0 _).symm.trans
      (congrFun (settle_quiet quiet) 0).symm).trans (congrFun same 0))
    refine ⟨by simpa [userInt, imp_iff_not_or] using quiet, ?_⟩
    rw [← sources_iff, intr]
    cases sources csr || sleepInt csr <;> decide
  · intro settled
    have quiet : userInt csr = false := by
      simpa [userInt, imp_iff_not_or] using settled.acknowledged
    have intr := set.symm.trans (settled.intr.trans (sources_iff csr).symm)
    rw [settle_quiet quiet, setFlag_eq_self_iff.mpr, store_self]
    rw [shown]
    exact if_congr intr rfl rfl

/-- An SMI with a transmit interrupt, alone or with a receive interrupt, leaves the
registers as they were just when no flag of CSR5 is set and the interrupt state was
up to date. -/
theorem backdoor_transparent_iff (device : Device) (csr : Csr) (shadow : Shadow)
    (txInt : csr 0 &&& 0x0200 ≠ 0) :
    ((pcnet32Handler device csr shadow).1 5 = csr 5 ∧ (pcnet32Handler device csr shadow).1 74 = csr 74 ∧
      ∀ r, r ≠ 5 → r ≠ 74 → (pcnet32Handler device csr shadow).1 r = csr r) ↔
    csr 5 &&& 0x0a90 = 0 ∧ Settled csr := by
  rw [pcnet32Handler_txInt device csr shadow txInt, settle_five, ← settle_eq_self_iff]
  constructor
  · rintro ⟨five, xmtrc, others⟩
    refine ⟨and_not_eq_self_iff.mp five, ?_⟩
    rw [five] at xmtrc others
    funext r
    by_cases first : r = 5
    · rw [first, settle_five]
    by_cases second : r = 74
    · rw [second, xmtrc]
    · exact others r first second
  · rintro ⟨clear, settled⟩
    have same := and_not_eq_self_iff.mpr clear
    rw [same, settled]
    exact ⟨rfl, rfl, fun _ _ _ => rfl⟩

/-- A controller whose CSR0 and CSR58 do nothing. -/
def inert : Device := ⟨fun csr _ _ => csr, 0⟩

/-- A transmit interrupt is pending and shown, and CSR5 asks for suspension. -/
theorem backdoor_transparent_iff_suspendable :
    let csr : Csr := fun r => if r = 0 then 0x02c0 else if r = 74 then 16 else if r = 5 then 0x0001 else 0
    (pcnet32Handler inert csr ⟨0, 0⟩).1 5 = csr 5 ∧ (pcnet32Handler inert csr ⟨0, 0⟩).1 74 = csr 74 ∧
      ∀ r, r ≠ 5 → r ≠ 74 → (pcnet32Handler inert csr ⟨0, 0⟩).1 r = csr r :=
  (backdoor_transparent_iff inert _ ⟨0, 0⟩ (by decide)).mpr ⟨by decide, by decide, by decide⟩

/-- A pending flag in CSR5 is gone after the SMI. -/
theorem pending_flag_is_cleared :
    let csr : Csr := fun r => if r = 0 then 0x0280 else if r = 5 then 0x0010 else 0
    csr 0 &&& 0x0200 ≠ 0 ∧ csr 0 &&& 0x0400 = 0 ∧ Settled csr ∧ csr 5 = 0x0010 ∧
      (pcnet32Handler inert csr ⟨0, 0⟩).1 5 = 0 := by
  intro csr
  refine ⟨by decide, by decide, ⟨by decide, by decide⟩, by decide, ?_⟩
  rw [pcnet32Handler_txInt _ _ _ (by decide), settle_five]
  decide

/-- The driver's own view of the steps, which keeps two of the registers. -/
structure Shows (csr : Csr) (d : Transmit.Driver) : Prop where
  csr5 : csr 5 = d.nic.csr5.toBitVec
  xmtrc : (csr 74).toNat = d.nic.xmtrc

theorem Shows.step1 {csr : Csr} {d : Transmit.Driver} (shows : Shows csr d) (device : Device) :
    Shows (backdoorStep1 device csr).1 d.backdoorStep1 ∧
      (backdoorStep1 device csr).2.xmtrc.toNat = d.backdoorStep1.xmtrc := by
  refine ⟨⟨?_, ?_⟩, ?_⟩
  · simp only [backdoorStep1, readCsr_five, writeCsr_five, readCsr_xmtrc, shadow_width, settle_five, shows.csr5]
    rfl
  · rw [backdoorStep1_csr, settle_xmtrc]
    exact shows.xmtrc
  · rw [backdoorStep1_xmtrc]
    exact shows.xmtrc

theorem Shows.step2 {csr : Csr} {d : Transmit.Driver} (shows : Shows csr d) (device : Device)
    {shadow : Shadow} (saved : shadow.xmtrc.toNat = d.xmtrc) :
    Shows (backdoorStep2 device csr shadow).1 d.backdoorStep2 := by
  constructor
  · simp only [backdoorStep2, readCsr_five, writeCsr_five, writeCsr_xmtrc, shadow_width, settle_five, shows.csr5]
    rfl
  · rw [backdoorStep2_csr, settle_xmtrc, store_same]
    exact saved

end Aurora.Smm.Backdoor
