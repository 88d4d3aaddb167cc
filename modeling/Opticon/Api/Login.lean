import Opticon.Api.Authsession
import Opticon.Api.User
import Opticon.Crypto.Pwcrypt

/-! Logging in with a password of the user database (`cmd_user.c`). -/

namespace Opticon

/-- The salt for a new password, by what `rand` gives. -/
def userSalt (r r' : BitVec 32) : List UInt8 :=
  let drawn (r : BitVec 32) : UInt8 := UInt8.ofNat ((r &&& 0x3f).toNat + 0x30)
  asc "$1$" ++ [drawn r, drawn r', 36]

end Opticon
