import PolarCloud.Base.Base64

/-! # Constants of the configuration -/

namespace PolarCloud.Config

/-- The code of every address that the program makes itself: `sha3-256`. -/
def hashCode : UInt64 := 0x16

def walletTxTypeMining : UInt64 := 0
def walletTxTypeDepositIn : UInt64 := 1
def walletTxTypeDepositOut : UInt64 := 2
def walletTxTypePay : UInt64 := 3

def miningDeposit : UInt64 := 100000000
def miningReward : UInt64 := 100000000
def miningGas : UInt64 := 1

/-- The most members of a mining group. -/
def miningGroupMax : ℕ := 7

/-- The key under which the hash of the first block is kept: the bytes of `startblock`. -/
def keyBlockStart : Bytes := [0x73, 0x74, 0x61, 0x72, 0x74, 0x62, 0x6c, 0x6f, 0x63, 0x6b]

/-- The password every signature of the wallet is made with. -/
def walletPassword : String := "123456"

end PolarCloud.Config
