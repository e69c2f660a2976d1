import ElrondMint.Deployment
import ElrondMint.Delivery
import ElrondMint.Evaluation
import ElrondMint.Signers
import ElrondMint.Signing
import ElrondMint.Execution
import ElrondMint.Quorum
import ElrondMint.Interleaving
import ElrondMint.Nonces
import ElrondMint.Wrapped
import ElrondMint.Nft
import ElrondMint.Frozen
import ElrondMint.Departure
import ElrondMint.Entries
import ElrondMint.Outsiders
import ElrondMint.Governance
import ElrondMint.Unfinished
import ElrondMint.Upgrades
import ElrondMint.Bech32
import ElrondMint.Convertbits
import ElrondMint.Lib.Hex
import ElrondMint.Accounts
import ElrondMint.CallData
import ElrondMint.ContractAddress
import ElrondMint.Lib.Base64
import ElrondMint.Pem
import ElrondMint.Lib.Json
import ElrondMint.Transactions
import ElrondMint.ContractCalls
import ElrondMint.SystemCalls
